import LuaServer.LittleEndianBytes
import LuaServer.RankHistory
import Mathlib.Data.Finset.Max

/-!
# Snapshots of a rank board

A snapshot is the records of a board in their order.  The length of an id is stored in
16 bits, and only as many bytes of it: longer ids are cut.  The records are added to the
new board one after another, so a cut record replaces the record that has its id already,
or comes before it.
-/

namespace LuaServer

namespace RankBoards

open MachineIntegers
open LittleEndian (splitBytes splitBytes_append toInt_eight toInt_eight_range)

/-- A record of `Lrank::seri`. -/
def seriRecord (ele : Rankele) : ByteString :=
  let len := ele.id.length % 2 ^ 16
  LittleEndian.ofNat 2 len ++ (ele.id.take len ++
    (LittleEndian.ofInt 8 ele.score ++ LittleEndian.ofInt 8 ele.tm))

/-- `Lrank::seri`. -/
def Lrank.seri (rank : Rank) : ByteString :=
  rank.ranks_.elements.flatMap seriRecord

/-- One round of the loop of `Lrank::deseri`: the record at `i` and the bytes behind it, or
nothing when the round reads behind `len`. -/
def readRecord (str : ByteString) : Option (Rankele × ByteString) := do
  let (len, str) ← splitBytes 2 str
  let (id, str) ← splitBytes (LittleEndian.toNat len) str
  let (score, str) ← splitBytes 8 str
  let (tm, str) ← splitBytes 8 str
  return (⟨id, LittleEndian.toInt score, LittleEndian.toInt tm⟩, str)

theorem length_of_readRecord {str rest : ByteString} {ele : Rankele}
    (read : readRecord str = some (ele, rest)) : rest.length < str.length := by
  simp only [readRecord, splitBytes, Option.bind_eq_bind, Option.bind_eq_some_iff,
    Option.ite_none_right_eq_some, Option.some.injEq, Prod.exists, Prod.mk.injEq,
    Option.pure_def] at read
  obtain ⟨_, _, ⟨enough, -, rfl⟩, _, _, ⟨-, -, rfl⟩, _, _, ⟨-, -, rfl⟩, _, _, ⟨-, -, rfl⟩, -,
    rfl⟩ := read
  simp only [List.length_drop] at enough ⊢
  omega

/-- `Lrank::deseri`, which returns nothing when it reads behind the end of the string. -/
def Lrank.deseri (rank : Rank) (str : ByteString) : Option Rank :=
  if str = [] then some rank
  else
    match _ : readRecord str with
    | none => none
    | some (ele, rest) => Lrank.deseri (rank.add ele) rest
termination_by str.length
decreasing_by exact length_of_readRecord ‹_›

/-- A record whose score and time fit their types. -/
structure Storable (ele : Rankele) : Prop where
  score : -2 ^ 63 ≤ ele.score ∧ ele.score < 2 ^ 63
  tm : -2 ^ 63 ≤ ele.tm ∧ ele.tm < 2 ^ 63

namespace Rankele

/-- The record that is read back. -/
def cut (ele : Rankele) : Rankele :=
  { ele with id := ele.id.take (ele.id.length % 2 ^ 16) }

/-- The part of the place that cutting keeps. -/
def standing (ele : Rankele) : Lex (Intᵒᵈ × Int) :=
  toLex (OrderDual.toDual ele.score, ele.tm)

end Rankele

/-- The boards that `add` and `deseri` lead to. -/
inductive Reached (capacity : Nat) : Rank → Prop where
  | create : Reached capacity (Rank.create capacity)
  | add {rank : Rank} {ele : Rankele} (reached : Reached capacity rank)
      (storable : Storable ele) : Reached capacity (rank.add ele)
  | deseri {rank read : Rank} {str : ByteString} (reached : Reached capacity rank)
      (returned : Lrank.deseri rank str = some read) : Reached capacity read

/-- The snapshot of a board gives its first records back on a new board. -/
def SnapshotExact (rank : Rank) (capacity : Nat) : Prop :=
  ∃ read, Lrank.deseri (Rank.create capacity) (Lrank.seri rank) = some read ∧
    read.ranks_.elements = rank.ranks_.elements.take capacity

/-- No id of the first records is cut, and no later record that is cut gets in among them. -/
structure CutFits (records : List Rankele) (capacity : Nat) : Prop where
  short : ∀ ele ∈ records.take capacity, ele.id.length < 2 ^ 16
  later : ∀ ele ∈ records.drop capacity, ele.cut ∈ records.take capacity ∨
    ∀ first ∈ records.take capacity, first.id ≠ ele.cut.id ∧ first.less ele.cut = true

section Bytes

variable {ele : Rankele}

theorem readRecord_seriRecord (storable : Storable ele) (rest : ByteString) :
    readRecord (seriRecord ele ++ rest) = some (ele.cut, rest) := by
  have small : ele.id.length % 2 ^ 16 < 256 ^ 2 := Nat.mod_lt _ (by norm_num)
  have length : LittleEndian.toNat (LittleEndian.ofNat 2 (ele.id.length % 2 ^ 16)) =
      ele.id.length % 2 ^ 16 := LittleEndian.toNat_ofNat_of_lt small
  have taken : (ele.id.take (ele.id.length % 2 ^ 16)).length = ele.id.length % 2 ^ 16 :=
    List.length_take_of_le (Nat.mod_le _ _)
  simp only [readRecord, seriRecord, List.append_assoc]
  rw [splitBytes_append _ (LittleEndian.length_ofNat 2 _)]
  simp only [Option.bind_eq_bind, Option.bind_some, length]
  rw [splitBytes_append _ taken]
  simp only [Option.bind_some]
  rw [splitBytes_append _ (LittleEndian.length_ofInt 8 ele.score)]
  simp only [Option.bind_some]
  rw [splitBytes_append _ (LittleEndian.length_ofInt 8 ele.tm)]
  simp only [Option.bind_some, toInt_eight storable.score, toInt_eight storable.tm]
  rfl

theorem storable_of_readRecord {str rest : ByteString}
    (read : readRecord str = some (ele, rest)) : Storable ele := by
  simp only [readRecord, splitBytes, Option.bind_eq_bind, Option.bind_eq_some_iff,
    Option.ite_none_right_eq_some, Option.some.injEq, Prod.exists, Prod.mk.injEq,
    Option.pure_def] at read
  obtain ⟨_, _, ⟨-, -, rfl⟩, _, _, ⟨-, -, rfl⟩, _, _, ⟨eight, rfl, rfl⟩, _, _,
    ⟨eight', rfl, rfl⟩, rfl, -⟩ := read
  constructor
  · exact toInt_eight_range (List.length_take_of_le eight)
  · exact toInt_eight_range (List.length_take_of_le eight')

theorem exists_adds_of_deseri {rank read : Rank} {str : ByteString}
    (returned : Lrank.deseri rank str = some read) :
    ∃ adds : List Rankele, (∀ ele ∈ adds, Storable ele) ∧ read = adds.foldl Rank.add rank := by
  fun_induction Lrank.deseri rank str with
  | case1 rank =>
      cases returned
      exact ⟨[], fun ele absurdity => absurd absurdity List.not_mem_nil, rfl⟩
  | case2 => cases returned
  | case3 rank str nonempty ele rest found ih =>
      obtain ⟨adds, storable, same⟩ := ih returned
      refine ⟨ele :: adds, fun other member => ?_, same⟩
      rcases List.mem_cons.mp member with rfl | later
      · exact storable_of_readRecord found
      · exact storable other later

/-- Reading a snapshot adds the cut records in their order. -/
theorem deseri_records {records : List Rankele} (rank : Rank)
    (storable : ∀ ele ∈ records, Storable ele) :
    Lrank.deseri rank (records.flatMap seriRecord) =
      some ((records.map Rankele.cut).foldl Rank.add rank) := by
  induction records generalizing rank with
  | nil => simp [Lrank.deseri]
  | cons ele records ih =>
      have notEmpty : (ele :: records).flatMap seriRecord ≠ [] := by
        intro empty
        have lengths := congrArg List.length empty
        simp [seriRecord] at lengths
      rw [Lrank.deseri, if_neg notEmpty, List.flatMap_cons,
        readRecord_seriRecord (storable ele List.mem_cons_self)]
      exact ih _ fun other member => storable other (List.mem_cons_of_mem ele member)

end Bytes

section Standings

variable {ele other : Rankele}

theorem standing_cut (ele : Rankele) : ele.cut.standing = ele.standing :=
  rfl

theorem place_lt_iff : ele.place < other.place ↔
    ele.standing < other.standing ∨ ele.standing = other.standing ∧ ele.id < other.id := by
  simp only [Rankele.place, Rankele.standing, Prod.Lex.toLex_lt_toLex,
    EmbeddingLike.apply_eq_iff_eq, Prod.mk.injEq]
  tauto

theorem standing_le (before : ele.place < other.place) : ele.standing ≤ other.standing := by
  rcases place_lt_iff.mp before with less | ⟨same, -⟩
  · exact less.le
  · exact same.le

/-- Different records with one id differ in their standing. -/
theorem standing_lt_of_id (differ : ele ≠ other) (same : ele.id = other.id)
    (upTo : ele.standing ≤ other.standing) : ele.standing < other.standing := by
  refine lt_of_le_of_ne upTo fun equal => differ ?_
  obtain ⟨id, score, tm⟩ := ele
  simp only [Rankele.standing, EmbeddingLike.apply_eq_iff_eq, Prod.mk.injEq] at equal
  obtain ⟨rfl, rfl⟩ := equal
  simp only at same
  rw [same]

theorem cut_of_short (short : ele.id.length < 2 ^ 16) : ele.cut = ele := by
  rw [Rankele.cut, Nat.mod_eq_of_lt short, List.take_length]

theorem length_cut (ele : Rankele) : ele.cut.id.length < 2 ^ 16 := by
  rw [Rankele.cut, List.length_take]
  exact lt_of_le_of_lt (min_le_left _ _) (Nat.mod_lt _ (by norm_num))

end Standings

section Adds

variable {board : Board} {capacity : Nat} {ele old : Rankele}

theorem length_replace_of_mem (oldIn : old ∈ board.records) (same : old.id = ele.id) :
    (board.replace ele).records.elements.length = board.records.elements.length := by
  have longer : (board.replace ele).records.elements.length =
      (board.without ele.id).records.elements.length + 1 :=
    KeySorted.length_put fun other member => Board.place_ne (board.fresh_without ele) member
  obtain ⟨inside, -⟩ := KeySorted.exists_getElem_below oldIn
  have shorter := congrArg List.length (KeySorted.eraseIdx_below oldIn)
  rw [List.length_eraseIdx_of_lt inside, drop_eq_without oldIn, same] at shorter
  omega

theorem length_replace_of_fresh (fresh : ∀ other ∈ board.records, other.id ≠ ele.id) :
    (board.replace ele).records.elements.length = board.records.elements.length + 1 := by
  have longer : (board.replace ele).records.elements.length =
      (board.without ele.id).records.elements.length + 1 :=
    KeySorted.length_put fun other member => Board.place_ne (board.fresh_without ele) member
  rw [longer, without_of_absent fresh]

/-- A record of an id on the board takes the place of the old one. -/
theorem add_of_mem (oldIn : old ∈ board.records) (same : old.id = ele.id)
    (fits : board.records.elements.length ≤ capacity) :
    (∀ other, other ∈ (board.add capacity ele).records ↔
      other = ele ∨ other ∈ board.records ∧ other.id ≠ ele.id) ∧
    (board.add capacity ele).records.elements.length = board.records.elements.length := by
  have length := length_replace_of_mem oldIn same
  have whole : board.add capacity ele = board.replace ele := take_of_fits (by
    change (board.replace ele).records.elements.length ≤ capacity
    omega)
  rw [whole]
  exact ⟨fun other => Board.mem_replace, length⟩

/-- A record of a new id on a full board takes the place of the last one. -/
theorem add_of_full (fresh : ∀ other ∈ board.records, other.id ≠ ele.id)
    (full : board.records.elements.length = capacity) :
    (∀ other, other ∈ (board.add capacity ele).records ↔
      (other = ele ∨ other ∈ board.records) ∧
        ∃ behind, (behind = ele ∨ behind ∈ board.records) ∧ other.place < behind.place) ∧
    (board.add capacity ele).records.elements.length = capacity := by
  have length := length_replace_of_fresh fresh
  rw [full] at length
  have members : ∀ other, other ∈ (board.replace ele).records ↔
      other = ele ∨ other ∈ board.records := by
    intro other
    rw [Board.mem_replace]
    exact or_congr_right (and_iff_left_of_imp (fresh other))
  have taken : (board.add capacity ele).records.elements.length = capacity := by
    change ((board.replace ele).records.elements.take capacity).length = capacity
    rw [List.length_take, length]
    omega
  refine ⟨fun other => ?_, taken⟩
  have nonempty : (board.replace ele).records.elements ≠ [] := by
    intro empty
    rw [empty] at length
    cases length
  obtain ⟨last, isLast⟩ : ∃ last, (board.replace ele).records.elements.getLast? = some last :=
    ⟨_, List.getLast?_eq_some_getLast nonempty⟩
  have greatest : ∀ candidate ∈ (board.replace ele).records, candidate ≠ last →
      candidate.place < last.place :=
    fun candidate member differs => KeySorted.lt_getLast isLast member differs
  have lastIn : last ∈ (board.replace ele).records := List.mem_of_getLast? isLast
  have whole : board.add capacity ele = (board.replace ele).without last.id :=
    take_of_full length isLast
  rw [whole, Board.mem_without, ← members]
  apply and_congr_right
  intro member
  constructor
  · intro differs
    exact ⟨last, (members last).mp lastIn, greatest other member fun same =>
      differs (congrArg Rankele.id same)⟩
  · rintro ⟨behind, behindIn, less⟩ same
    have isLast' := (board.replace ele).distinct other member last lastIn same
    subst isLast'
    by_cases isBehind : behind = other
    · rw [isBehind] at less
      exact lt_irrefl _ less
    · exact less.asymm (greatest behind ((members behind).mpr behindIn) isBehind)

theorem mem_of_mem_add {other : Rankele} (member : other ∈ (board.add capacity ele).records) :
    other = ele ∨ other ∈ board.records ∧ other.id ≠ ele.id :=
  Board.mem_replace.mp (List.mem_of_mem_take member)

theorem add_last (fresh : ∀ other ∈ board.records, other.id ≠ ele.id)
    (largest : ∀ other ∈ board.records, other.place < ele.place) :
    (board.add capacity ele).records.elements =
      (board.records.elements ++ [ele]).take capacity := by
  change (((board.without ele.id).records.put ele).elements).take capacity = _
  rw [without_of_absent fresh, KeySorted.elements_put_of_lt largest]

theorem add_self (member : ele ∈ board.records)
    (fits : board.records.elements.length ≤ capacity) : board.add capacity ele = board := by
  apply Board.ext_records
  refine congrArg KeySorted.elements (KeySorted.eq_of_mem_iff fun other => ?_)
  rw [(add_of_mem member rfl fits).1]
  constructor
  · rintro (rfl | ⟨otherIn, -⟩)
    · exact member
    · exact otherIn
  · intro otherIn
    by_cases same : other.id = ele.id
    · exact Or.inl (board.distinct other otherIn ele member same)
    · exact Or.inr ⟨otherIn, same⟩

end Adds

/-- The board behind adding records in turn. -/
def Board.addAll (capacity : Nat) (board : Board) (adds : List Rankele) : Board :=
  adds.foldl (Board.add capacity) board

theorem Rank.addAll_implements {rank : Rank} {board : Board} {capacity : Nat}
    (implements : rank.Implements board) (same : rank.max_ = capacity) (adds : List Rankele) :
    (adds.foldl Rank.add rank).Implements (board.addAll capacity adds) := by
  induction adds generalizing rank board with
  | nil => exact implements
  | cons ele adds ih =>
      obtain ⟨added, stillSame⟩ := Rank.add_implements implements ele
      rw [same] at added stillSame
      exact ih added stillSame

section Restoring

variable {capacity : Nat}

/-- Records in their order are put one behind the other. -/
theorem addAll_sorted {front : List Rankele}
    (sorted : front.Pairwise fun first second => first.place < second.place)
    (distinct : front.Pairwise fun first second => first.id ≠ second.id)
    (fits : front.length ≤ capacity) :
    (Board.empty.addAll capacity front).records.elements = front := by
  induction front using List.reverseRecOn with
  | nil => rfl
  | append_singleton front last ih =>
      rw [List.length_append, List.length_singleton] at fits
      obtain ⟨frontSorted, -, before⟩ := List.pairwise_append.mp sorted
      obtain ⟨frontDistinct, -, apart⟩ := List.pairwise_append.mp distinct
      have elements := ih frontSorted frontDistinct (by omega)
      rw [Board.addAll, List.foldl_concat, ← Board.addAll, add_last, elements]
      · rw [List.take_of_length_le]
        rw [List.length_append, List.length_singleton]
        exact fits
      · intro other member
        rw [← KeySorted.mem_elements, elements] at member
        exact apart other member last (List.mem_singleton_self last)
      · intro other member
        rw [← KeySorted.mem_elements, elements] at member
        exact before other member last (List.mem_singleton_self last)

/-- The records that are added behind the first ones. -/
structure Later (front rest : List Rankele) : Prop where
  behind : ∀ first ∈ front, ∀ ele ∈ rest, first.standing ≤ ele.standing
  sorted : rest.Pairwise fun ele next => ele.standing ≤ next.standing

theorem Later.tail {front rest : List Rankele} {ele : Rankele}
    (later : Later front (ele :: rest)) : Later front rest :=
  ⟨fun first firstIn other otherIn =>
    later.behind first firstIn other (List.mem_cons_of_mem ele otherIn),
    (List.pairwise_cons.mp later.sorted).2⟩

/-- A record of the board is one of the first ones or not better than they are. -/
def Origin (front : List Rankele) (board : Board) : Prop :=
  ∀ other ∈ board.records, other ∈ front ∨ ∀ first ∈ front, first.standing ≤ other.standing

/-- One of the first records is not on the board and cannot return: what comes is worse,
or the board is full of better records. -/
def Lost (capacity : Nat) (front : List Rankele) (board : Board) (rest : List Rankele) : Prop :=
  ∃ first ∈ front, first ∉ board.records ∧
    ((∀ ele ∈ rest, first.standing < ele.standing) ∨
      board.records.elements.length = capacity ∧
        ∀ other ∈ board.records, other.place < first.place)

section Losing

variable {front rest : List Rankele} {board : Board} {ele : Rankele}

theorem Origin.add (origin : Origin front board)
    (behind : ∀ first ∈ front, first.standing ≤ ele.standing) :
    Origin front (board.add capacity ele) := by
  intro other member
  rcases mem_of_mem_add member with rfl | ⟨old, -⟩
  · exact Or.inr behind
  · exact origin other old

theorem Lost.of_worse {first : Rankele} (firstIn : first ∈ front) (gone : first ∉ board.records)
    (later : Later front (ele :: rest)) (worse : first.standing < ele.standing) :
    Lost capacity front (board.add capacity ele) rest := by
  refine ⟨first, firstIn, fun member => ?_, Or.inl fun other otherIn => ?_⟩
  · rcases mem_of_mem_add member with rfl | ⟨old, -⟩
    · exact lt_irrefl _ worse
    · exact gone old
  · exact worse.trans_le ((List.pairwise_cons.mp later.sorted).1 other otherIn)

/-- A better record of the same id is lost when a record replaces it. -/
theorem Lost.of_replaced {old : Rankele} (oldIn : old ∈ front) (same : old.id = ele.id)
    (later : Later front (ele :: rest)) (worse : old.standing < ele.standing) :
    Lost capacity front (board.add capacity ele) rest := by
  refine ⟨old, oldIn, fun member => ?_, Or.inl fun other otherIn => ?_⟩
  · rcases mem_of_mem_add member with isEle | ⟨-, differs⟩
    · rw [isEle] at worse
      exact lt_irrefl _ worse
    · exact differs same
  · exact worse.trans_le ((List.pairwise_cons.mp later.sorted).1 other otherIn)

theorem Lost.add_of_mem {first old : Rankele} (origin : Origin front board)
    (later : Later front (ele :: rest)) (firstIn : first ∈ front) (gone : first ∉ board.records)
    (full : board.records.elements.length = capacity)
    (better : ∀ other ∈ board.records, other.place < first.place)
    (oldIn : old ∈ board.records) (same : old.id = ele.id) :
    Lost capacity front (board.add capacity ele) rest := by
  obtain ⟨members, length⟩ := RankBoards.add_of_mem oldIn same full.le
  by_cases worse : first.standing < ele.standing
  · exact Lost.of_worse firstIn gone later worse
  · have upTo := later.behind first firstIn ele List.mem_cons_self
    have equal : first.standing = ele.standing := le_antisymm upTo (not_lt.mp worse)
    by_cases less : ele.place < first.place
    · refine ⟨first, firstIn, fun member => ?_, Or.inr ⟨length.trans full, ?_⟩⟩
      · rcases (members first).mp member with rfl | ⟨firstOld, -⟩
        · exact lt_irrefl _ less
        · exact gone firstOld
      · intro other member
        rcases (members other).mp member with rfl | ⟨otherOld, -⟩
        · exact less
        · exact better other otherOld
    · -- The record of the same id was a better one, and is lost now.
      have notBefore : first.id ≤ ele.id := by
        by_contra greater
        exact less (place_lt_iff.mpr (Or.inr ⟨equal.symm, not_le.mp greater⟩))
      have oldWins : old.standing < first.standing := by
        rcases place_lt_iff.mp (better old oldIn) with wins | ⟨-, idLess⟩
        · exact wins
        · rw [same] at idLess
          exact absurd idLess (not_lt.mpr notBefore)
      have oldFront : old ∈ front := (origin old oldIn).resolve_right fun worst =>
        absurd (worst first firstIn) (not_le.mpr oldWins)
      exact Lost.of_replaced oldFront same later (equal ▸ oldWins)

/-- A full board of better records takes a record of a new id. -/
theorem Lost.add_of_full {first : Rankele} (firstIn : first ∈ front)
    (gone : first ∉ board.records) (full : board.records.elements.length = capacity)
    (better : ∀ other ∈ board.records, other.place < first.place)
    (fresh : ∀ other ∈ board.records, other.id ≠ ele.id) :
    Lost capacity front (board.add capacity ele) rest := by
  obtain ⟨members, length⟩ := RankBoards.add_of_full fresh full
  refine ⟨first, firstIn, fun member => ?_, Or.inr ⟨length, fun other member => ?_⟩⟩
  · obtain ⟨isOld, behind, behindIn, less⟩ := (members first).mp member
    rcases isOld with rfl | old
    · rcases behindIn with rfl | behindOld
      · exact lt_irrefl _ less
      · exact less.asymm (better behind behindOld)
    · exact gone old
  · obtain ⟨isOld, behind, behindIn, less⟩ := (members other).mp member
    rcases isOld with rfl | old
    · rcases behindIn with rfl | behindOld
      · exact absurd less (lt_irrefl _)
      · exact less.trans (better behind behindOld)
    · exact better other old

/-- What is lost stays lost, or another record is lost in its place. -/
theorem Lost.add (origin : Origin front board) (later : Later front (ele :: rest))
    (lost : Lost capacity front board (ele :: rest)) :
    Lost capacity front (board.add capacity ele) rest := by
  obtain ⟨first, firstIn, gone, worse | ⟨full, better⟩⟩ := lost
  · exact Lost.of_worse firstIn gone later (worse ele List.mem_cons_self)
  · by_cases known : ∃ old ∈ board.records, old.id = ele.id
    · obtain ⟨old, oldIn, same⟩ := known
      exact Lost.add_of_mem origin later firstIn gone full better oldIn same
    · exact Lost.add_of_full firstIn gone full better fun other member same =>
        known ⟨other, member, same⟩

theorem Lost.addAll (origin : Origin front board) (later : Later front rest)
    (lost : Lost capacity front board rest) :
    Lost capacity front (board.addAll capacity rest) [] := by
  induction rest generalizing board with
  | nil => exact lost
  | cons ele rest ih =>
      have behind : ∀ first ∈ front, first.standing ≤ ele.standing :=
        fun first firstIn => later.behind first firstIn ele List.mem_cons_self
      exact ih (origin.add behind) later.tail (lost.add origin later)

/-- The last of the first records is evicted for a new record before it. -/
theorem lost_of_fresh (members : ∀ other, other ∈ board.records ↔ other ∈ front)
    (full : board.records.elements.length = capacity)
    (fresh : ∀ other ∈ board.records, other.id ≠ ele.id) {first : Rankele}
    (firstIn : first ∈ front) (less : ele.place < first.place) :
    Lost capacity front (board.add capacity ele) rest := by
  obtain ⟨added, length⟩ := add_of_full fresh full
  obtain ⟨last, lastIn, greatest⟩ := Finset.exists_max_image front.toFinset Rankele.place
    ⟨first, List.mem_toFinset.mpr firstIn⟩
  simp only [List.mem_toFinset] at lastIn greatest
  have eleLast : ele.place < last.place := less.trans_le (greatest first firstIn)
  have evicted : ∀ other ∈ (board.add capacity ele).records, other.place < last.place := by
    intro other member
    obtain ⟨-, behind, isBehind, before⟩ := (added other).mp member
    rcases isBehind with rfl | behindIn
    · exact before.trans eleLast
    · exact before.trans_le (greatest behind ((members behind).mp behindIn))
  exact ⟨last, lastIn, fun member => lt_irrefl _ (evicted last member), Or.inr ⟨length, evicted⟩⟩

/-- A record that gets in among the first ones loses one of them. -/
theorem lost_of_intruder (same : board.records.elements = front) (full : front.length = capacity)
    (later : Later front (ele :: rest)) (new : ele ∉ front)
    (intrudes : ¬ ∀ first ∈ front, first.id ≠ ele.id ∧ first.place < ele.place) :
    Lost capacity front (board.add capacity ele) rest := by
  have members : ∀ other, other ∈ board.records ↔ other ∈ front := by
    intro other
    rw [← KeySorted.mem_elements, same]
  by_cases known : ∃ old ∈ board.records, old.id = ele.id
  · obtain ⟨old, oldIn, sameId⟩ := known
    have oldFront := (members old).mp oldIn
    have upTo := later.behind old oldFront ele List.mem_cons_self
    exact Lost.of_replaced oldFront sameId later
      (standing_lt_of_id (fun equal => new (equal ▸ oldFront)) sameId upTo)
  · have fresh : ∀ other ∈ board.records, other.id ≠ ele.id :=
      fun other member sameId => known ⟨other, member, sameId⟩
    obtain ⟨first, firstIn, notBefore⟩ : ∃ first ∈ front, ¬ first.place < ele.place := by
      by_contra none
      push Not at none
      exact intrudes fun first firstIn =>
        ⟨fresh first ((members first).mpr firstIn), none first firstIn⟩
    refine lost_of_fresh members (by rw [same, full]) fresh firstIn ?_
    refine lt_of_le_of_ne (not_lt.mp notBefore) fun equal => new ?_
    exact Rankele.place_injective equal ▸ firstIn

/-- Later records leave the first ones as they are exactly when none gets in among them. -/
theorem addAll_later_iff (same : board.records.elements = front) (full : front.length = capacity)
    (later : Later front rest) : (board.addAll capacity rest).records.elements = front ↔
      ∀ ele ∈ rest, ele ∈ front ∨
        ∀ first ∈ front, first.id ≠ ele.id ∧ first.place < ele.place := by
  have members : ∀ other, other ∈ board.records ↔ other ∈ front := by
    intro other
    rw [← KeySorted.mem_elements, same]
  induction rest with
  | nil => exact iff_of_true same fun ele absurdity => absurd absurdity List.not_mem_nil
  | cons ele rest ih =>
      rw [List.forall_mem_cons]
      by_cases stays : ele ∈ front ∨ ∀ first ∈ front, first.id ≠ ele.id ∧ first.place < ele.place
      · have unchanged : board.add capacity ele = board := by
          rcases stays with known | behind
          · exact add_self ((members ele).mpr known) (by rw [same, full])
          · apply Board.ext_records
            rw [add_last (fun other member => (behind other ((members other).mp member)).1)
              (fun other member => (behind other ((members other).mp member)).2), same, ← full,
              List.take_left']
            rfl
        rw [Board.addAll, List.foldl_cons, unchanged, ← Board.addAll]
        exact (ih later.tail).trans (and_iff_right stays).symm
      · refine iff_of_false (fun restored => ?_) fun fits => stays fits.1
        rw [not_or] at stays
        have origin : Origin front (board.add capacity ele) := by
          refine Origin.add (fun other member => Or.inl ((members other).mp member)) ?_
          exact fun first firstIn => later.behind first firstIn ele List.mem_cons_self
        obtain ⟨first, firstIn, gone, -⟩ := Lost.addAll origin later.tail
          (lost_of_intruder same full later stays.1 stays.2)
        rw [← KeySorted.mem_elements] at gone
        exact gone (restored ▸ firstIn)

end Losing

section Records

variable {records : List Rankele}

theorem mem_of_mem_addAll {board : Board} {adds : List Rankele} {other : Rankele}
    (member : other ∈ (board.addAll capacity adds).records) :
    other ∈ board.records ∨ other ∈ adds := by
  induction adds generalizing board with
  | nil => exact Or.inl member
  | cons ele adds ih =>
      rcases ih member with old | new
      · rcases mem_of_mem_add old with rfl | ⟨before, -⟩
        · exact Or.inr List.mem_cons_self
        · exact Or.inl before
      · exact Or.inr (List.mem_cons_of_mem ele new)

/-- Only records with short ids are read back. -/
theorem short_of_restored (restored : (Board.empty.addAll capacity
    (records.map Rankele.cut)).records.elements = records.take capacity) :
    ∀ ele ∈ records.take capacity, ele.id.length < 2 ^ 16 := by
  intro ele member
  rw [← restored, KeySorted.mem_elements] at member
  rcases mem_of_mem_addAll member with new | cutIn
  · exact absurd new KeySorted.not_mem_empty
  · obtain ⟨whole, -, rfl⟩ := List.mem_map.mp cutIn
    exact length_cut whole

theorem map_cut_of_short (short : ∀ ele ∈ records, ele.id.length < 2 ^ 16) :
    records.map Rankele.cut = records :=
  (List.map_congr_left fun ele member => cut_of_short (short ele member)).trans
    (List.map_id records)

theorem later_cut (sorted : records.Pairwise fun first second => first.place < second.place) :
    Later (records.take capacity) ((records.drop capacity).map Rankele.cut) := by
  have split := sorted
  rw [← List.take_append_drop capacity records, List.pairwise_append] at split
  obtain ⟨-, restSorted, before⟩ := split
  constructor
  · intro first firstIn other otherIn
    obtain ⟨ele, eleIn, rfl⟩ := List.mem_map.mp otherIn
    rw [standing_cut]
    exact standing_le (before first firstIn ele eleIn)
  · rw [List.pairwise_map]
    exact restSorted.imp fun less => standing_le less

/-- The first records come back when their ids are short and no later one, which may be
cut, gets in among them. -/
theorem restored_iff (sorted : records.Pairwise fun first second => first.place < second.place)
    (distinct : records.Pairwise fun first second => first.id ≠ second.id) :
    (Board.empty.addAll capacity (records.map Rankele.cut)).records.elements =
      records.take capacity ↔ CutFits records capacity := by
  by_cases short : ∀ ele ∈ records.take capacity, ele.id.length < 2 ^ 16
  · have front : (Board.empty.addAll capacity (records.take capacity)).records.elements =
        records.take capacity :=
      addAll_sorted (sorted.sublist (List.take_sublist capacity records))
        (distinct.sublist (List.take_sublist capacity records)) (List.length_take_le _ _)
    have parts : Board.empty.addAll capacity (records.map Rankele.cut) =
        (Board.empty.addAll capacity (records.take capacity)).addAll capacity
          ((records.drop capacity).map Rankele.cut) := by
      conv_lhs => rw [← List.take_append_drop capacity records, List.map_append,
        map_cut_of_short short, Board.addAll, List.foldl_append]
      rfl
    rw [parts]
    by_cases full : capacity ≤ records.length
    · rw [addAll_later_iff front (List.length_take_of_le full) (later_cut sorted),
        List.forall_mem_map]
      constructor
      · intro later
        refine ⟨short, fun ele member => ?_⟩
        refine (later ele member).imp_right fun behind first firstIn => ?_
        exact ⟨(behind first firstIn).1, Rankele.less_iff.mpr (behind first firstIn).2⟩
      · intro fits ele member
        refine (fits.later ele member).imp_right fun behind first firstIn => ?_
        exact ⟨(behind first firstIn).1, Rankele.less_iff.mp (behind first firstIn).2⟩
    · have nothing : records.drop capacity = [] := List.drop_eq_nil_of_le (by omega)
      rw [nothing]
      refine iff_of_true front ⟨short, fun ele absurdity => ?_⟩
      rw [nothing] at absurdity
      exact absurd absurdity List.not_mem_nil
  · exact iff_of_false (fun restored => short (short_of_restored restored))
      fun fits => short fits.short

end Records

end Restoring

section Runs

variable {capacity : Nat} {adds : List Rankele}

theorem create_implements (capacity : Nat) :
    (Rank.create capacity).Implements Board.empty :=
  ⟨rfl, fun id ele => by simp [Board.empty, Rank.create], Nat.zero_le _⟩

theorem mem_of_mem_run {ele : Rankele}
    (member : ele ∈ (Rank.run capacity adds).ranks_.elements) : ele ∈ adds := by
  have implements := Rank.addAll_implements (create_implements capacity) rfl adds
  rw [Rank.run, implements.ranks, KeySorted.mem_elements] at member
  exact (mem_of_mem_addAll member).resolve_left KeySorted.not_mem_empty

theorem elements_run (capacity : Nat) (adds : List Rankele) :
    (Rank.run capacity adds).ranks_.elements =
      (Board.empty.addAll capacity adds).records.elements :=
  congrArg KeySorted.elements
    (Rank.addAll_implements (create_implements capacity) rfl adds).ranks

/-- A snapshot is read back as the cut records, added to a new board. -/
theorem snapshotExact_iff_restored {rank : Rank}
    (stored : ∀ ele ∈ rank.ranks_.elements, Storable ele) : SnapshotExact rank capacity ↔
      (Board.empty.addAll capacity (rank.ranks_.elements.map Rankele.cut)).records.elements =
        rank.ranks_.elements.take capacity := by
  rw [SnapshotExact, Lrank.seri, deseri_records _ stored, ← elements_run, Rank.run]
  simp only [Option.some.injEq, exists_eq_left']

theorem Reached.exists_run {rank : Rank} (reached : Reached capacity rank) :
    ∃ adds : List Rankele, (∀ ele ∈ adds, Storable ele) ∧ rank = Rank.run capacity adds := by
  induction reached with
  | create => exact ⟨[], fun ele absurdity => absurd absurdity List.not_mem_nil, rfl⟩
  | @add rank ele reached storable ih =>
      obtain ⟨adds, before, rfl⟩ := ih
      refine ⟨adds ++ [ele], fun other member => ?_, ?_⟩
      · rcases List.mem_append.mp member with old | last
        · exact before other old
        · rwa [List.mem_singleton.mp last]
      · rw [Rank.run, Rank.run, List.foldl_concat]
  | deseri reached returned ih =>
      obtain ⟨adds, before, rfl⟩ := ih
      obtain ⟨more, storable, rfl⟩ := exists_adds_of_deseri returned
      refine ⟨adds ++ more, fun other member => ?_, ?_⟩
      · rcases List.mem_append.mp member with old | new
        · exact before other old
        · exact storable other new
      · rw [Rank.run, Rank.run, List.foldl_append]

/-- The snapshot of a board gives its first records back on a board of any size exactly
when their ids are short and no later record, its id cut, gets in among them. -/
theorem snapshot_exact_iff (capacity m : Nat) (rank : Rank) (reached : Reached capacity rank) :
    SnapshotExact rank m ↔ CutFits rank.ranks_.elements m := by
  obtain ⟨adds, storable, rfl⟩ := reached.exists_run
  have elements := elements_run capacity adds
  have stored : ∀ ele ∈ (Rank.run capacity adds).ranks_.elements, Storable ele :=
    fun ele member => storable ele (mem_of_mem_run member)
  rw [snapshotExact_iff_restored stored]
  apply restored_iff
  · rw [elements]
    exact KeySorted.sorted _
  · rw [elements]
    exact List.pairwise_map.mp (Board.nodup_ids _)

/-- Two records are added, and the better one is read back. -/
theorem snapshot_exact_iff_pair :
    SnapshotExact (((Rank.create 2).add ⟨[1], 5, 0⟩).add ⟨[2], 7, 0⟩) 1 := by
  refine (snapshot_exact_iff 2 1 _ ((Reached.create.add ⟨by norm_num, by norm_num⟩).add
    ⟨by norm_num, by norm_num⟩)).mpr ?_
  have elements : (((Rank.create 2).add ⟨[1], 5, 0⟩).add ⟨[2], 7, 0⟩).ranks_.elements =
      [⟨[2], 7, 0⟩, ⟨[1], 5, 0⟩] := by decide +kernel
  rw [elements]
  exact ⟨by decide, by decide +kernel⟩

/-- The length of an id of 65536 bytes is stored as 0. -/
theorem not_snapshot_exact : ¬ ∀ (capacity m : Nat) (rank : Rank), 1 ≤ m →
    Reached capacity rank → SnapshotExact rank m := by
  intro claimed
  have storable : Storable ⟨List.replicate 65536 97, 5, 0⟩ := ⟨by norm_num, by norm_num⟩
  have restored := claimed 1 1 _ le_rfl (Reached.create.add storable)
  have elements : ((Rank.create 1).add ⟨List.replicate 65536 97, 5, 0⟩).ranks_.elements =
      [⟨List.replicate 65536 97, 5, 0⟩] :=
    (elements_run 1 [⟨List.replicate 65536 97, 5, 0⟩]).trans
      (addAll_sorted (List.pairwise_singleton _ _) (List.pairwise_singleton _ _) le_rfl)
  rw [snapshotExact_iff_restored, elements] at restored
  · have short := short_of_restored restored _ List.mem_cons_self
    rw [List.length_replicate] at short
    norm_num at short
  · rw [elements]
    intro ele member
    rw [List.mem_singleton.mp member]
    exact storable

end Runs

end RankBoards

end LuaServer
