import LuaServer.RankAgreement
import LuaServer.RunConditions

/-!
# Boards under improving scores

A board forgets the records it evicts.  As long as every new record of an id
comes before its last one, no forgotten record could return: the board holds
the best of the latest records of all ids that were ever added.
-/

namespace LuaServer

namespace RankBoards

open RunConditions

/-- The last record of its id. -/
def Latest (adds : List Rankele) (ele : Rankele) : Prop :=
  ∃ before after, adds = before ++ ele :: after ∧ ∀ other ∈ after, other.id ≠ ele.id

/-- Every record comes before the last one of its id. -/
def Improving (adds : List Rankele) : Prop :=
  ∀ before ele after, adds = before ++ ele :: after →
    ∀ old, Latest before old → old.id = ele.id → ele.less old = true

theorem Latest.mem {adds : List Rankele} {ele : Rankele} (latest : Latest adds ele) :
    ele ∈ adds := by
  obtain ⟨before, after, rfl, -⟩ := latest
  simp

theorem not_latest_nil {ele : Rankele} : ¬ Latest [] ele :=
  fun latest => List.not_mem_nil latest.mem

theorem latest_iff_lasting {adds : List Rankele} {ele : Rankele} :
    Latest adds ele ↔ Lasting (· = ele) (fun other => other.id = ele.id) adds := by
  constructor
  · rintro ⟨before, after, split, last⟩
    exact ⟨before, ele, after, split, rfl, last⟩
  · rintro ⟨before, _, after, split, rfl, last⟩
    exact ⟨before, after, split, last⟩

theorem latest_concat {adds : List Rankele} {ele other : Rankele} :
    Latest (adds ++ [ele]) other ↔ other = ele ∨ Latest adds other ∧ other.id ≠ ele.id := by
  rw [latest_iff_lasting, lasting_concat, ← latest_iff_lasting]
  exact or_congr eq_comm (and_congr_right' (not_congr eq_comm))

theorem Improving.of_concat {adds : List Rankele} {ele : Rankele}
    (improving : Improving (adds ++ [ele])) : Improving adds := by
  rintro before candidate after rfl
  exact improving before candidate (after ++ [ele]) (by simp)

theorem Improving.of_pairwise {adds : List Rankele}
    (improving : adds.Pairwise fun old ele => old.id = ele.id → ele.less old = true) :
    Improving adds := by
  rintro before ele after rfl old latest
  exact (List.pairwise_append.mp improving).2.2 old latest.mem ele List.mem_cons_self

section Forgetting

variable {elements : List Rankele} {ele : Rankele}

/-- The record of an id is at most one of the elements, so behind it nothing
more is taken out. -/
theorem take_filter_take {id : ByteString}
    (distinct : elements.Pairwise fun first second => first.id ≠ second.id) (count : Nat) :
    ((elements.take (count + 1)).filter fun other => other.id ≠ id).take count =
      (elements.filter fun other => other.id ≠ id).take count := by
  induction elements generalizing count with
  | nil => rfl
  | cons head tail ih =>
      obtain ⟨differs, distinct⟩ := List.pairwise_cons.mp distinct
      rw [List.take_succ_cons]
      by_cases same : head.id = id
      · have others : ∀ other ∈ tail, decide (other.id ≠ id) = true := fun other member =>
          decide_eq_true fun equal => differs other member (same.trans equal.symm)
        simp only [List.filter_cons, same, ne_eq, not_true_eq_false, decide_false,
          Bool.false_eq_true, if_false]
        rw [List.filter_eq_self.mpr others, List.filter_eq_self.mpr fun other member =>
          others other (List.mem_of_mem_take member), List.take_take, Nat.min_self]
      · simp only [List.filter_cons, same, ne_eq, not_false_eq_true, decide_true, if_true]
        cases count with
        | zero => rfl
        | succ count =>
            rw [List.take_succ_cons, List.take_succ_cons]
            exact congrArg (head :: ·) (ih distinct count)

/-- A better record of an id can be put among the first records alone. -/
theorem take_place_take
    (sorted : elements.Pairwise fun first second => first.place < second.place)
    (distinct : elements.Pairwise fun first second => first.id ≠ second.id)
    (better : ∀ old ∈ elements, old.id = ele.id → ele.place < old.place) (count : Nat) :
    (KeySorted.place Rankele.place ele
      ((elements.take count).filter fun other => other.id ≠ ele.id)).take count =
    (KeySorted.place Rankele.place ele
      (elements.filter fun other => other.id ≠ ele.id)).take count := by
  induction elements generalizing count with
  | nil => simp
  | cons head tail ih =>
      obtain ⟨differs, restDistinct⟩ := List.pairwise_cons.mp distinct
      obtain ⟨larger, restSorted⟩ := List.pairwise_cons.mp sorted
      cases count with
      | zero => rfl
      | succ count =>
          have inFront : ∀ others : List Rankele, (∀ other ∈ others, ele.place < other.place) →
              KeySorted.place Rankele.place ele others = ele :: others := by
            intro others behind
            cases others with
            | nil => rfl
            | cons first others => rw [KeySorted.place, if_pos (behind first List.mem_cons_self)]
          by_cases early : ele.place < head.place
          · -- the new record becomes the first one
            have behind : ∀ other ∈ head :: tail, ele.place < other.place := by
              intro other member
              rcases List.mem_cons.mp member with rfl | later
              · exact early
              · exact early.trans (larger other later)
            rw [inFront _ fun other member => behind other (List.mem_of_mem_take
                (List.mem_of_mem_filter member)),
              inFront _ fun other member => behind other (List.mem_of_mem_filter member)]
            exact congrArg (ele :: ·) (take_filter_take distinct count)
          · have otherId : head.id ≠ ele.id := fun same =>
              early (better head List.mem_cons_self same)
            have late : head.place < ele.place := lt_of_le_of_ne (not_lt.mp early) fun same =>
              otherId (congrArg Rankele.id (Rankele.place_injective same))
            simp only [List.take_succ_cons, List.filter_cons, otherId, ne_eq, not_false_eq_true,
              decide_true, if_true, KeySorted.place, if_neg early, if_pos late]
            exact congrArg (head :: ·) (ih restSorted restDistinct
              (fun old member => better old (List.mem_cons_of_mem head member)) count)

end Forgetting

namespace Board

/-- Replace the record of an id on a board without bounds. -/
def replace (board : Board) (ele : Rankele) : Board :=
  (board.without ele.id).insert ele (board.fresh_without ele)

theorem mem_replace {board : Board} {ele other : Rankele} :
    other ∈ (board.replace ele).records ↔
      other = ele ∨ other ∈ board.records ∧ other.id ≠ ele.id := by
  rw [replace, insert, mem_put (board.fresh_without ele), mem_without]

theorem distinct_ids (board : Board) :
    board.records.elements.Pairwise fun first second => first.id ≠ second.id :=
  List.pairwise_map.mp board.nodup_ids

theorem add_take {board : Board} {ele : Rankele} (capacity : Nat)
    (better : ∀ old ∈ board.records, old.id = ele.id → ele.place < old.place) :
    ((board.take capacity).add capacity ele).records.elements =
      ((board.replace ele).take capacity).records.elements :=
  take_place_take board.records.sorted board.distinct_ids better capacity

end Board

/-- The latest records of all ids. -/
def latestBoard (adds : List Rankele) : Board :=
  adds.foldl Board.replace Board.empty

theorem mem_latestBoard (adds : List Rankele) (ele : Rankele) :
    ele ∈ (latestBoard adds).records ↔ Latest adds ele := by
  induction adds using List.reverseRecOn with
  | nil => exact iff_of_false KeySorted.not_mem_empty not_latest_nil
  | append_singleton adds last ih =>
      rw [latestBoard, List.foldl_concat, ← latestBoard, Board.mem_replace, ih, latest_concat]

/-- Boards with the same records behave alike. -/
theorem Board.ext_records {board other : Board}
    (same : board.records.elements = other.records.elements) : board = other := by
  obtain ⟨⟨elements, sorted⟩, distinct⟩ := board
  obtain ⟨⟨otherElements, otherSorted⟩, otherDistinct⟩ := other
  obtain rfl : elements = otherElements := same
  rfl

/-- The board of the C++ code, which forgets what it evicts, holds the best of the
latest records. -/
theorem Rank.run_implements_take {capacity : Nat} {adds : List Rankele}
    (improving : Improving adds) :
    (Rank.run capacity adds).Implements ((latestBoard adds).take capacity) ∧
      (Rank.run capacity adds).max_ = capacity := by
  induction adds using List.reverseRecOn with
  | nil =>
      rw [@Board.ext_records ((latestBoard []).take capacity) Board.empty List.take_nil]
      exact ⟨⟨rfl, fun id ele => by simp [Board.empty, Rank.run, Rank.create], Nat.zero_le _⟩, rfl⟩
  | append_singleton adds ele ih =>
      obtain ⟨implements, sameMax⟩ := ih improving.of_concat
      obtain ⟨added, stillSame⟩ := Rank.add_implements implements ele
      have better : ∀ old ∈ (latestBoard adds).records, old.id = ele.id →
          ele.place < old.place := fun old member same =>
        Rankele.less_iff.mp
          (improving adds ele [] rfl old ((mem_latestBoard adds old).mp member) same)
      rw [sameMax, Board.ext_records (Board.add_take capacity better)] at added
      simp only [Rank.run, latestBoard, List.foldl_concat] at added ⊢
      exact ⟨added, stillSame.trans sameMax⟩

/-- After calls that improve the record of an id each time it is added again, both
boards hold the best of the latest records of all ids, in their order. -/
theorem boards_hold_best (capacity : Nat) (adds : List Rankele) (improving : Improving adds) :
    ∃ (latest : List Rankele) (lua : RankLua), RankLua.run capacity adds = some lua ∧
      (∀ ele, ele ∈ latest ↔ Latest adds ele) ∧
      (latest.Pairwise fun first second => first.less second = true) ∧
      (Rank.run capacity adds).ranks_.elements = latest.take capacity ∧
      lua.arr = latest.take capacity := by
  obtain ⟨board, lua, returned, luaBoard, cppBoard⟩ := exists_board capacity adds
  have best := (@Rank.run_implements_take capacity _ improving).1
  have elements : (Rank.run capacity adds).ranks_.elements =
      (latestBoard adds).records.elements.take capacity := by
    rw [best.ranks]
    rfl
  refine ⟨(latestBoard adds).records.elements, lua, returned, mem_latestBoard adds, ?_, elements,
    ?_⟩
  · exact (latestBoard adds).records.sorted.imp fun less => Rankele.less_iff.mpr less
  · rw [luaBoard.arr, ← cppBoard.ranks, elements]

/-- An id that was evicted returns with a better record. -/
theorem boards_hold_best_return :
    ∃ (latest : List Rankele) (lua : RankLua),
      RankLua.run 1 [⟨[1], 5, 0⟩, ⟨[2], 7, 0⟩, ⟨[1], 9, 0⟩] = some lua ∧
      (∀ ele, ele ∈ latest ↔ Latest [⟨[1], 5, 0⟩, ⟨[2], 7, 0⟩, ⟨[1], 9, 0⟩] ele) ∧
      (latest.Pairwise fun first second => first.less second = true) ∧
      (Rank.run 1 [⟨[1], 5, 0⟩, ⟨[2], 7, 0⟩, ⟨[1], 9, 0⟩]).ranks_.elements = latest.take 1 ∧
      lua.arr = latest.take 1 :=
  boards_hold_best 1 _ (Improving.of_pairwise (by decide))

end RankBoards

end LuaServer
