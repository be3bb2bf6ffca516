import LuaServer.LruCache
import Mathlib.Data.List.Dedup

/-!
# The contents of an LRU list

The ids of an `Lru` and their iterators belong together in every run of updates and
deletions, and what an update pushes out is the id at the end of a full list.  Without
deletions the list holds the ids updated last: of all distinct ids, the newest first,
as many as there is room for.  A smaller list is then always the front of a larger one.
-/

namespace LuaServer

section Recency

variable {Id : Type*} [DecidableEq Id]

/-- The distinct ids of a history, the newest first. -/
def newestFirst (history : List Id) : List Id :=
  history.dedup.reverse

theorem nodup_newestFirst (history : List Id) : (newestFirst history).Nodup :=
  List.nodup_reverse.mpr (List.nodup_dedup history)

theorem dedup_concat (history : List Id) (id : Id) :
    (history ++ [id]).dedup = history.dedup.filter (· ≠ id) ++ [id] := by
  induction history with
  | nil => rfl
  | cons first history ih =>
      rw [List.cons_append]
      by_cases again : first ∈ history
      · rw [List.dedup_cons_of_mem again, List.dedup_cons_of_mem (List.mem_append_left _ again), ih]
      · rw [List.dedup_cons_of_notMem again]
        by_cases same : first = id
        · have inBoth : first ∈ history ++ [id] := by simp [same]
          rw [List.dedup_cons_of_mem inBoth, ih, List.filter_cons_of_neg (by simp [same])]
        · have notIn : first ∉ history ++ [id] := by simp [again, same]
          rw [List.dedup_cons_of_notMem notIn, ih, List.filter_cons_of_pos (by simp [same]),
            List.cons_append]

theorem newestFirst_concat (history : List Id) (id : Id) :
    newestFirst (history ++ [id]) = id :: (newestFirst history).filter (· ≠ id) := by
  rw [newestFirst, dedup_concat, List.reverse_concat, newestFirst, List.filter_reverse]

theorem filter_ne_of_notMem {ids : List Id} {id : Id} (absent : id ∉ ids) :
    ids.filter (· ≠ id) = ids := by
  refine List.filter_eq_self.mpr fun other member => decide_eq_true ?_
  rintro rfl
  exact absent member

/-- Where an id occurs once, the first ids without it are those of the longer front. -/
theorem take_filter_ne {ids : List Id} (apart : ids.Nodup) (id : Id) (count : Nat) :
    ((ids.take (count + 1)).filter (· ≠ id)).take count = (ids.filter (· ≠ id)).take count := by
  induction ids generalizing count with
  | nil => rfl
  | cons first ids ih =>
      obtain ⟨notIn, apartRest⟩ := List.nodup_cons.mp apart
      rw [List.take_succ_cons]
      by_cases same : first = id
      · subst same
        have notInFront : first ∉ ids.take count :=
          fun member => notIn (List.mem_of_mem_take member)
        rw [List.filter_cons_of_neg (by simp), List.filter_cons_of_neg (by simp),
          filter_ne_of_notMem notIn, filter_ne_of_notMem notInFront, List.take_take, Nat.min_self]
      · rw [List.filter_cons_of_pos (by simp [same]), List.filter_cons_of_pos (by simp [same])]
        cases count with
        | zero => rfl
        | succ count => rw [List.take_succ_cons, List.take_succ_cons, ih apartRest count]

end Recency

/-- A call of `Lru::update` or of `Lru::del`. -/
inductive LruCall where
  | update (id : ByteString)
  | del (id : ByteString)
  deriving DecidableEq, Repr

namespace Lru

/-- `new Lru()` with its capacity. -/
def new (num : Nat) : Lru :=
  ⟨[], fun _ => none, num, 0⟩

/-- The strings of the list. -/
def ids (lru : Lru) : List ByteString :=
  lru.ids_.map Node.id

def call (lru : Lru) : LruCall → Lru
  | .update id => (lru.update id).1
  | .del id => lru.del id

def run (lru : Lru) (calls : List LruCall) : Lru :=
  calls.foldl call lru

/-- The list is bounded and belongs to its iterators. -/
structure Bounded (lru : Lru) (num : Nat) : Prop where
  linked : lru.Linked
  isNum : lru.num_ = num
  fits : lru.ids_.length ≤ num

/-- What an update of an id removes. -/
structure Evicts (lru : Lru) (num : Nat) (id : ByteString) : Prop where
  removes_iff : (∃ other ∈ lru.ids, other ≠ id ∧ other ∉ (lru.update id).1.ids) ↔
    lru.ids.length = num ∧ id ∉ lru.ids
  removes_last : ∀ other ∈ lru.ids, other ≠ id → other ∉ (lru.update id).1.ids →
    lru.ids.getLast? = some other ∧ (lru.update id).2 = other
  keeps : ¬ (lru.ids.length = num ∧ id ∉ lru.ids) → (lru.update id).2 = []

section Steps

variable {lru : Lru} {num : Nat}

theorem map_others (lru : Lru) (id : ByteString) :
    (lru.others id).map Node.id = lru.ids.filter (· ≠ id) := by
  rw [ids, others, List.filter_map]
  rfl

namespace Bounded

theorem new (num : Nat) : (new num).Bounded num := by
  refine ⟨⟨fun id it => ?_, List.Pairwise.nil, fun node none => ?_⟩, rfl, Nat.zero_le _⟩
  · exact iff_of_false (Option.some_ne_none it).symm List.not_mem_nil
  · exact absurd none List.not_mem_nil

theorem nodup_ids (bounded : lru.Bounded num) : lru.ids.Nodup :=
  List.pairwise_map.mpr bounded.linked.ids_apart

theorem length_ids (bounded : lru.Bounded num) : lru.ids.length ≤ num :=
  (List.length_map Node.id).trans_le bounded.fits

theorem del (bounded : lru.Bounded num) (id : ByteString) : (lru.del id).Bounded num := by
  refine ⟨bounded.linked.del id, (Lru.Linked.del_num_ lru id).1.trans bounded.isNum, ?_⟩
  rw [bounded.linked.del_ids_]
  exact (List.length_filter_le _ _).trans bounded.fits

theorem length_filter_ne (bounded : lru.Bounded num) (id : ByteString) :
    (lru.ids.filter (· ≠ id)).length = num ↔ lru.ids.length = num ∧ id ∉ lru.ids := by
  have atMost := bounded.length_ids
  by_cases present : id ∈ lru.ids
  · have fewer : (lru.ids.filter (· ≠ id)).length < lru.ids.length :=
      List.length_filter_lt_length_iff_exists.mpr ⟨id, present, by simp⟩
    simp only [present, not_true, and_false, iff_false]
    omega
  · rw [filter_ne_of_notMem present]
    exact (and_iff_left present).symm

/-- An update of a list of a given capacity: the id comes to the front, and the list is
cut off. -/
theorem update (bounded : lru.Bounded num) (positive : 0 < num) (range : num < 2 ^ 31)
    (id : ByteString) :
    (lru.update id).1.Bounded num ∧
      (lru.update id).1.ids = (id :: lru.ids.filter (· ≠ id)).take num ∧
      ((lru.ids.filter (· ≠ id)).length < num ∧ (lru.update id).2 = [] ∨
        ∃ front, lru.ids.filter (· ≠ id) = front ++ [(lru.update id).2] ∧
          front.length + 1 = num) := by
  have others := map_others lru id
  obtain ⟨linked, sameNum, ⟨room, ids_, evi⟩ | ⟨front, last, isLast, length, ids_, evi⟩⟩ :=
    bounded.linked.update bounded.isNum (range.trans (by norm_num)) positive bounded.fits id
  · have small : (lru.ids.filter (· ≠ id)).length < num := by
      rw [← others, List.length_map]
      exact room
    refine ⟨⟨linked, sameNum, ?_⟩, ?_, Or.inl ⟨small, evi⟩⟩
    · rw [ids_]
      exact room
    · rw [ids, ids_, List.map_cons, others]
      exact (List.take_of_length_le small).symm
  · rw [isLast, List.map_append] at others
    refine ⟨⟨linked, sameNum, ?_⟩, ?_, Or.inr ⟨front.map Node.id, ?_, ?_⟩⟩
    · rw [ids_]
      exact length.le
    · rw [ids, ids_, List.map_cons, ← others, ← List.cons_append, List.take_left']
      rw [List.length_cons, List.length_map, length]
    · rw [evi]
      exact others.symm
    · rw [List.length_map, length]

theorem call (bounded : lru.Bounded num) (positive : 0 < num) (range : num < 2 ^ 31)
    (event : LruCall) : (lru.call event).Bounded num := by
  cases event with
  | update id => exact (bounded.update positive range id).1
  | del id => exact bounded.del id

theorem evicts (bounded : lru.Bounded num) (positive : 0 < num) (range : num < 2 ^ 31)
    (id : ByteString) : lru.Evicts num id := by
  have full := bounded.length_filter_ne id
  have others : ∀ other, other ∈ lru.ids.filter (· ≠ id) ↔ other ∈ lru.ids ∧ other ≠ id := by
    simp [List.mem_filter]
  obtain ⟨-, isIds, ⟨room, evi⟩ | ⟨front, isLast, length⟩⟩ := bounded.update positive range id
  · have stays : ∀ other ∈ lru.ids, other ≠ id → other ∈ (lru.update id).1.ids := by
      intro other member differ
      rw [isIds, List.take_of_length_le room]
      exact List.mem_cons_of_mem id ((others other).mpr ⟨member, differ⟩)
    refine ⟨iff_of_false ?_ ?_, ?_, fun _ => evi⟩
    · rintro ⟨other, member, differ, gone⟩
      exact gone (stays other member differ)
    · intro isFull
      exact room.ne (full.mpr isFull)
    · intro other member differ gone
      exact absurd (stays other member differ) gone
  · have isFull : lru.ids.length = num ∧ id ∉ lru.ids := by
      rw [← full, isLast, List.length_append, List.length_singleton, length]
    have all : lru.ids.filter (· ≠ id) = lru.ids := filter_ne_of_notMem isFull.2
    have isFront : (lru.update id).1.ids = id :: front := by
      rw [isIds, isLast, ← List.cons_append, List.take_left']
      rw [List.length_cons, length]
    have apart := bounded.nodup_ids
    rw [← all, isLast] at apart
    have evicted : (lru.update id).2 ∈ lru.ids ∧ (lru.update id).2 ≠ id := by
      rw [← others, isLast]
      exact List.mem_append_right _ (List.mem_singleton_self _)
    have gone : (lru.update id).2 ∉ (lru.update id).1.ids := by
      rw [isFront, List.mem_cons, not_or]
      refine ⟨evicted.2, fun inFront => ?_⟩
      exact (List.nodup_append.mp apart).2.2 _ inFront _ (List.mem_singleton_self _) rfl
    refine ⟨iff_of_true ⟨_, evicted.1, evicted.2, gone⟩ isFull, ?_, fun not => (not isFull).elim⟩
    intro other member differ notIn
    have isOther : other = (lru.update id).2 := by
      have here := (others other).mpr ⟨member, differ⟩
      rw [isLast] at here
      rcases List.mem_append.mp here with inFront | atEnd
      · exact absurd (isFront ▸ List.mem_cons_of_mem id inFront) notIn
      · exact List.mem_singleton.mp atEnd
    rw [← all, isLast, List.getLast?_concat, isOther]
    exact ⟨rfl, rfl⟩

end Bounded

end Steps

section Runs

variable {num : Nat}

theorem bounded_run (positive : 0 < num) (range : num < 2 ^ 31) (calls : List LruCall) :
    ((new num).run calls).Bounded num := by
  induction calls using List.reverseRecOn with
  | nil => exact Bounded.new num
  | append_singleton calls last ih =>
      rw [run, List.foldl_concat]
      exact ih.call positive range last

/-- After updates alone, the list holds the ids updated last. -/
theorem ids_run_updates (positive : 0 < num) (range : num < 2 ^ 31)
    (history : List ByteString) :
    ((new num).run (history.map .update)).ids = (newestFirst history).take num := by
  induction history using List.reverseRecOn with
  | nil => exact List.take_nil.symm
  | append_singleton history last ih =>
      have bounded := bounded_run positive range (history.map .update)
      have step := (bounded.update positive range last).2.1
      obtain ⟨count, rfl⟩ := Nat.exists_eq_succ_of_ne_zero positive.ne'
      rw [List.map_append, List.map_singleton, run, List.foldl_concat]
      refine step.trans ?_
      rw [ih, newestFirst_concat, List.take_succ_cons, List.take_succ_cons,
        take_filter_ne (nodup_newestFirst history)]

/-- In every run the ids are apart and belong to their iterators, and an update removes
another id exactly when the list is full without its own: the last one, which it hands
back.  Updates alone leave the ids updated last, newest first, so that a smaller list is
the front of a larger one. -/
theorem contents_of_run (positive : 0 < num) (range : num < 2 ^ 31) (calls : List LruCall) :
    (((new num).run calls).ids.Nodup ∧
      ((new num).run calls).Linked ∧
      ∀ id, ((new num).run calls).Evicts num id) ∧
    ∀ history, calls = history.map .update →
      ((new num).run calls).ids = (newestFirst history).take num ∧
      ∀ fewer, 0 < fewer → fewer ≤ num →
        ((new fewer).run calls).ids <+: ((new num).run calls).ids := by
  have bounded := bounded_run positive range calls
  refine ⟨⟨bounded.nodup_ids, bounded.linked, bounded.evicts positive range⟩, ?_⟩
  rintro history rfl
  have isIds := ids_run_updates positive range history
  refine ⟨isIds, fun fewer isPositive atMost => ?_⟩
  rw [isIds, ids_run_updates isPositive (atMost.trans_lt range)]
  exact List.take_prefix_take_left atMost

/-- Of three ids, a list of two keeps the two updated last. -/
theorem contents_of_run_three :
    ((new 2).run ([[1], [2], [1], [3]].map .update)).ids = [[3], [1]] ∧
      ((new 1).run ([[1], [2], [1], [3]].map .update)).ids <+:
        ((new 2).run ([[1], [2], [1], [3]].map .update)).ids := by
  obtain ⟨-, updates⟩ :=
    contents_of_run (by decide : 0 < 2) (by decide) ([[1], [2], [1], [3]].map .update)
  obtain ⟨isIds, front⟩ := updates _ rfl
  exact ⟨isIds.trans (by decide), front 1 (by decide) (by decide)⟩

end Runs

end Lru

end LuaServer
