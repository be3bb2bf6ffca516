import LuaServer.ByteStrings
import LuaServer.KeySortedLists
import LuaServer.RunConditions
import Mathlib.Data.Prod.Lex

/-!
# Timers with two orders

A timer keeps its entries in a set ordered by id and info, and the iterators
into that set in a second one ordered by time, id and info.  After any calls
the two sets hold the entries that were added last and neither deleted nor
expired since, and `expire` returns and removes those that are due.
-/

namespace LuaServer

namespace Timers

open RunConditions

/-- `Timer::Ele`. -/
structure Ele where
  id_ : Int
  tm_ : Int
  info_ : ByteString
  deriving DecidableEq, Repr

namespace Ele

/-- `Ele::operator<`. -/
def less (lhs rhs : Ele) : Bool :=
  if lhs.id_ ≠ rhs.id_ then lhs.id_ < rhs.id_
  else lhs.info_ < rhs.info_

/-- `Itercmp`, for the elements two iterators point to. -/
def dueBefore (lhs rhs : Ele) : Bool :=
  if lhs.tm_ ≠ rhs.tm_ then lhs.tm_ < rhs.tm_
  else if lhs.id_ ≠ rhs.id_ then lhs.id_ < rhs.id_
  else lhs.info_ < rhs.info_

/-- What the first set compares. -/
def slot (ele : Ele) : Lex (Int × ByteString) :=
  toLex (ele.id_, ele.info_)

/-- What the second set compares. -/
def due (ele : Ele) : Lex (Int × Lex (Int × ByteString)) :=
  toLex (ele.tm_, ele.slot)

variable {lhs rhs : Ele}

theorem less_iff : lhs.less rhs = true ↔ lhs.slot < rhs.slot := by
  simp only [less, slot, Prod.Lex.toLex_lt_toLex]
  split
  next differ => simp [differ]
  next same => simp [not_not.mp same]

theorem dueBefore_iff : lhs.dueBefore rhs = true ↔ lhs.due < rhs.due := by
  have slots := @less_iff lhs rhs
  simp only [less] at slots
  simp only [dueBefore, due, Prod.Lex.toLex_lt_toLex]
  split
  next differ => simp [differ]
  next same =>
    rw [slots]
    simp [not_not.mp same]

theorem slot_eq_iff : lhs.slot = rhs.slot ↔ lhs.id_ = rhs.id_ ∧ lhs.info_ = rhs.info_ := by
  simp only [slot, EmbeddingLike.apply_eq_iff_eq, Prod.mk.injEq]

theorem due_injective (same : lhs.due = rhs.due) : lhs = rhs := by
  obtain ⟨id, tm, info⟩ := lhs
  simp only [due, slot, EmbeddingLike.apply_eq_iff_eq, Prod.mk.injEq] at same
  obtain ⟨rfl, rfl, rfl⟩ := same
  rfl

theorem id_le_of_slot_lt (less : lhs.slot < rhs.slot) : lhs.id_ ≤ rhs.id_ := by
  simp only [slot, Prod.Lex.toLex_lt_toLex] at less
  omega

theorem tm_le_of_due_lt (less : lhs.due < rhs.due) : lhs.tm_ ≤ rhs.tm_ := by
  simp only [due, Prod.Lex.toLex_lt_toLex] at less
  omega

end Ele

/-- `struct Timer`.  A set is given by its elements in order, an iterator by the
element it points to. -/
structure Timer where
  timer_ : KeySorted Ele.slot
  iter_ : KeySorted Ele.due

namespace Timer

def create : Timer :=
  ⟨KeySorted.empty _, KeySorted.empty _⟩

/-- Erase an element from both sets. -/
def erase (timer : Timer) (it : Ele) : Timer :=
  ⟨timer.timer_.drop it.slot, timer.iter_.drop it.due⟩

/-- `Timer::del`. -/
def del (timer : Timer) (ele : Ele) : Timer :=
  match timer.timer_.find ele.slot with
  | none => timer
  | some it => timer.erase it

/-- `Timer::add`. -/
def add (timer : Timer) (ele : Ele) : Timer :=
  let timer := timer.del ele
  match timer.timer_.find ele.slot with
  | none => ⟨timer.timer_.put ele, timer.iter_.put ele⟩
  | some _ => timer

/-- The loop of `delid` over the elements from an iterator on. -/
def delidFrom (id : Int) : List Ele → Timer → Timer
  | [], timer => timer
  | it :: rest, timer => if it.id_ = id then delidFrom id rest (timer.erase it) else timer

/-- `Timer::delid`. -/
def delid (timer : Timer) (id : Int) : Timer :=
  let ele : Ele := ⟨id, 0, []⟩
  delidFrom id (timer.timer_.fromKey ele.slot) timer

/-- The loop of `expire`, and the pairs it pushes. -/
def expireFrom (tm : Int) : List Ele → Timer → Timer × List (Int × ByteString)
  | [], timer => (timer, [])
  | ele :: rest, timer =>
      if tm ≥ ele.tm_ then
        let (timer, pushed) := expireFrom tm rest (timer.erase ele)
        (timer, (ele.id_, ele.info_) :: pushed)
      else (timer, [])

/-- `expire`. -/
def expire (timer : Timer) (tm : Int) : Timer × List (Int × ByteString) :=
  expireFrom tm timer.iter_.elements timer

end Timer

/-- The calls of the Lua library. -/
inductive TimerEvent where
  | add (id tm : Int) (info : ByteString)
  | del (id : Int) (info : ByteString)
  | delid (id : Int)
  | expire (tm : Int)

/-- The state after a call. -/
def Timer.step (timer : Timer) : TimerEvent → Timer
  | .add id tm info => timer.add ⟨id, tm, info⟩
  | .del id info => timer.del ⟨id, 0, info⟩
  | .delid id => timer.delid id
  | .expire tm => (timer.expire tm).1

def Timer.run (events : List TimerEvent) : Timer :=
  events.foldl Timer.step Timer.create

/-- A call that sets the entry anew, deletes it or lets it expire. -/
def TimerEvent.Ends (ele : Ele) : TimerEvent → Prop
  | .add id _ info => id = ele.id_ ∧ info = ele.info_
  | .del id info => id = ele.id_ ∧ info = ele.info_
  | .delid id => id = ele.id_
  | .expire tm => ele.tm_ ≤ tm

/-- An entry that was added and has not ended since. -/
def Pending (events : List TimerEvent) (ele : Ele) : Prop :=
  ∃ before after, events = before ++ .add ele.id_ ele.tm_ ele.info_ :: after ∧
    ∀ event ∈ after, ¬ event.Ends ele

theorem not_pending_nil {ele : Ele} : ¬ Pending [] ele := by
  rintro ⟨before, after, none, -⟩
  simp at none

theorem pending_iff_lasting {events : List TimerEvent} {ele : Ele} :
    Pending events ele ↔
      Lasting (· = .add ele.id_ ele.tm_ ele.info_) (TimerEvent.Ends ele) events := by
  constructor
  · rintro ⟨before, after, split, lasts⟩
    exact ⟨before, _, after, split, rfl, lasts⟩
  · rintro ⟨before, _, after, split, rfl, lasts⟩
    exact ⟨before, after, split, lasts⟩

theorem pending_concat {events : List TimerEvent} {event : TimerEvent} {ele : Ele} :
    Pending (events ++ [event]) ele ↔
      event = .add ele.id_ ele.tm_ ele.info_ ∨ Pending events ele ∧ ¬ event.Ends ele := by
  rw [pending_iff_lasting, lasting_concat, ← pending_iff_lasting]

namespace Timer

/-- Both sets consist of the elements with a property. -/
structure Holds (timer : Timer) (content : Ele → Prop) : Prop where
  memTimer_ : ∀ ele, ele ∈ timer.timer_ ↔ content ele
  memIter_ : ∀ ele, ele ∈ timer.iter_ ↔ content ele

namespace Holds

variable {timer : Timer} {content other : Ele → Prop} {ele : Ele}

theorem create : Timer.create.Holds fun _ => False :=
  ⟨fun _ => iff_of_false KeySorted.not_mem_empty id,
    fun _ => iff_of_false KeySorted.not_mem_empty id⟩

theorem congr (holds : timer.Holds content) (same : ∀ ele, content ele ↔ other ele) :
    timer.Holds other :=
  ⟨fun ele => (holds.memTimer_ ele).trans (same ele),
    fun ele => (holds.memIter_ ele).trans (same ele)⟩

theorem unique (holds : timer.Holds content) {first second : Ele} (member : content first)
    (otherMember : content second) (same : first.slot = second.slot) : first = second :=
  KeySorted.eq_of_key_eq ((holds.memTimer_ first).mpr member)
    ((holds.memTimer_ second).mpr otherMember) same

theorem erase (holds : timer.Holds content) (member : content ele) :
    (timer.erase ele).Holds fun candidate => content candidate ∧ candidate ≠ ele := by
  constructor
  · intro candidate
    rw [Timer.erase, KeySorted.mem_drop, holds.memTimer_]
    exact and_congr_right fun isMember =>
      not_congr ⟨holds.unique isMember member, congrArg Ele.slot⟩
  · intro candidate
    rw [Timer.erase, KeySorted.mem_drop, holds.memIter_]
    exact and_congr_right fun _ => not_congr ⟨Ele.due_injective, congrArg Ele.due⟩

theorem del (holds : timer.Holds content) (ele : Ele) :
    (timer.del ele).Holds fun candidate => content candidate ∧ candidate.slot ≠ ele.slot := by
  unfold Timer.del
  cases found : timer.timer_.find ele.slot with
  | none =>
      refine holds.congr fun candidate => (and_iff_left_of_imp fun member => ?_).symm
      exact KeySorted.find_eq_none.mp found candidate ((holds.memTimer_ candidate).mpr member)
  | some it =>
      obtain ⟨member, same⟩ := KeySorted.find_eq_some.mp found
      have isMember := (holds.memTimer_ it).mp member
      refine (holds.erase isMember).congr fun candidate => and_congr_right fun otherMember => ?_
      rw [← same]
      exact not_congr ⟨congrArg Ele.slot, holds.unique otherMember isMember⟩

theorem add (holds : timer.Holds content) (ele : Ele) :
    (timer.add ele).Holds fun candidate =>
      candidate = ele ∨ content candidate ∧ candidate.slot ≠ ele.slot := by
  have deleted := holds.del ele
  have missing : (timer.del ele).timer_.find ele.slot = none :=
    KeySorted.find_eq_none.mpr fun candidate member =>
      ((deleted.memTimer_ candidate).mp member).2
  simp only [Timer.add, missing]
  constructor
  · intro candidate
    rw [KeySorted.mem_put, deleted.memTimer_]
    exact or_congr_right (and_iff_left_of_imp And.right)
  · intro candidate
    rw [KeySorted.mem_put, deleted.memIter_]
    refine or_congr_right (and_iff_left_of_imp fun member same => ?_)
    exact member.2 (congrArg Ele.slot (Ele.due_injective same))

/-- The loop of `delid` stops behind the last entry of the id. -/
theorem delidFrom {id : Int} {its : List Ele} (holds : timer.Holds content)
    (members : ∀ it ∈ its, content it ∧ id ≤ it.id_)
    (sorted : its.Pairwise fun first second => first.slot < second.slot) :
    (Timer.delidFrom id its timer).Holds fun candidate =>
      content candidate ∧ ¬ (candidate ∈ its ∧ candidate.id_ = id) := by
  induction its generalizing timer content with
  | nil => exact holds.congr fun candidate => by simp
  | cons it its ih =>
      obtain ⟨larger, sorted⟩ := List.pairwise_cons.mp sorted
      rw [Timer.delidFrom]
      split
      next same =>
        have rest : ∀ later ∈ its, (content later ∧ later ≠ it) ∧ id ≤ later.id_ := by
          intro later member
          obtain ⟨isMember, least⟩ := members later (List.mem_cons_of_mem it member)
          exact ⟨⟨isMember, fun equal => (larger later member).ne (equal ▸ rfl)⟩, least⟩
        refine (ih (holds.erase (members it List.mem_cons_self).1) rest sorted).congr
          fun candidate => ?_
        by_cases first : candidate = it
        · simp [first, same]
        · simp [first]
      next differs =>
        refine holds.congr fun candidate => (and_iff_left ?_).symm
        rintro ⟨member, isId⟩
        have least := (members it List.mem_cons_self).2
        rcases List.mem_cons.mp member with rfl | later
        · exact differs isId
        · have := Ele.id_le_of_slot_lt (larger candidate later)
          omega

/-- `delid` starts from an entry that is not larger than those of the id. -/
theorem delid (holds : timer.Holds content) (id : Int) :
    (timer.delid id).Holds fun candidate => content candidate ∧ candidate.id_ ≠ id := by
  have fromStart : ∀ candidate : Ele, candidate ∈ timer.timer_.fromKey (Ele.slot ⟨id, 0, []⟩) ↔
      content candidate ∧ id ≤ candidate.id_ := by
    intro candidate
    rw [KeySorted.fromKey, List.mem_filter, KeySorted.mem_elements, holds.memTimer_]
    refine and_congr_right fun _ => ?_
    have least := ByteString.nil_le candidate.info_
    simp only [Ele.slot, decide_eq_true_eq, Prod.Lex.toLex_le_toLex, least, and_true]
    omega
  have sorted : (timer.timer_.fromKey (Ele.slot ⟨id, 0, []⟩)).Pairwise
      fun first second => first.slot < second.slot := timer.timer_.sorted.filter _
  refine (holds.delidFrom (fun it member => (fromStart it).mp member) sorted).congr
    fun candidate => and_congr_right fun member => not_congr ?_
  rw [fromStart]
  exact ⟨And.right, fun same => ⟨⟨member, same.ge⟩, same⟩⟩

/-- The loop of `expire` stops behind the last entry that is due. -/
theorem expireFrom {tm : Int} {its : List Ele} (holds : timer.Holds content)
    (members : ∀ it ∈ its, content it)
    (sorted : its.Pairwise fun first second => first.due < second.due) :
    ((Timer.expireFrom tm its timer).1.Holds fun candidate =>
      content candidate ∧ ¬ (candidate ∈ its ∧ candidate.tm_ ≤ tm)) ∧
    (Timer.expireFrom tm its timer).2 =
      (its.filter fun ele => ele.tm_ ≤ tm).map fun ele => (ele.id_, ele.info_) := by
  induction its generalizing timer content with
  | nil => exact ⟨holds.congr fun candidate => by simp, rfl⟩
  | cons it its ih =>
      obtain ⟨larger, sorted⟩ := List.pairwise_cons.mp sorted
      rw [Timer.expireFrom]
      split
      next expired =>
        have rest : ∀ later ∈ its, content later ∧ later ≠ it := fun later member =>
          ⟨members later (List.mem_cons_of_mem it member),
            fun equal => (larger later member).ne (equal ▸ rfl)⟩
        obtain ⟨after, pushed⟩ := ih (holds.erase (members it List.mem_cons_self)) rest sorted
        refine ⟨after.congr fun candidate => ?_, ?_⟩
        · by_cases first : candidate = it
          · simp [first, expired.le]
          · simp [first]
        · simp only [pushed, List.filter_cons, decide_eq_true expired.le, if_true, List.map_cons]
      next waiting =>
        have later : ∀ candidate ∈ it :: its, ¬ candidate.tm_ ≤ tm := by
          intro candidate member
          rcases List.mem_cons.mp member with rfl | member
          · exact waiting
          · have := Ele.tm_le_of_due_lt (larger candidate member)
            omega
        refine ⟨holds.congr fun candidate => (and_iff_left fun early => ?_).symm, ?_⟩
        · exact later candidate early.1 early.2
        · rw [List.filter_eq_nil_iff.mpr fun candidate member => by
            simpa using later candidate member]
          rfl

theorem expire (holds : timer.Holds content) (tm : Int) :
    ((timer.expire tm).1.Holds fun candidate => content candidate ∧ ¬ candidate.tm_ ≤ tm) ∧
    (timer.expire tm).2 =
      (timer.iter_.elements.filter fun ele => ele.tm_ ≤ tm).map
        fun ele => (ele.id_, ele.info_) := by
  obtain ⟨after, pushed⟩ := @Timer.Holds.expireFrom _ _ tm _ holds
    (fun it member => (holds.memIter_ it).mp member) timer.iter_.sorted
  refine ⟨after.congr fun candidate => and_congr_right fun member => not_congr ?_, pushed⟩
  exact and_iff_right ((holds.memIter_ candidate).mpr member)

theorem step {events : List TimerEvent} (holds : timer.Holds (Pending events))
    (event : TimerEvent) : (timer.step event).Holds (Pending (events ++ [event])) := by
  cases event with
  | add id tm info =>
      refine (holds.add ⟨id, tm, info⟩).congr fun candidate => ?_
      obtain ⟨candidateId, candidateTm, candidateInfo⟩ := candidate
      simp only [pending_concat, TimerEvent.Ends, TimerEvent.add.injEq, Ele.mk.injEq, ne_eq,
        Ele.slot_eq_iff, eq_comm]
  | del id info =>
      refine (holds.del ⟨id, 0, info⟩).congr fun candidate => ?_
      simp only [pending_concat, TimerEvent.Ends, reduceCtorEq, false_or, ne_eq, Ele.slot_eq_iff,
        eq_comm]
  | delid id =>
      refine (holds.delid id).congr fun candidate => ?_
      simp only [pending_concat, TimerEvent.Ends, reduceCtorEq, false_or, ne_eq, eq_comm]
  | expire tm =>
      refine (holds.expire tm).1.congr fun candidate => ?_
      simp only [pending_concat, TimerEvent.Ends, reduceCtorEq, false_or]

end Holds

theorem run_holds (events : List TimerEvent) : (run events).Holds (Pending events) := by
  induction events using List.reverseRecOn with
  | nil => exact Holds.create.congr fun ele => iff_of_false id not_pending_nil
  | append_singleton events event ih =>
      rw [run, List.foldl_concat]
      exact ih.step event

end Timer

/-- After any calls both sets hold the entries that were added and have not ended
since, one for each id and info.  Then `expire` returns those that are due, in
the order of time, id and info, and removes them from both sets. -/
theorem timer_exact (events : List TimerEvent) :
    (∀ ele, ele ∈ (Timer.run events).timer_ ↔ Pending events ele) ∧
    (∀ ele, ele ∈ (Timer.run events).iter_ ↔ Pending events ele) ∧
    (∀ first second, Pending events first → Pending events second →
      first.id_ = second.id_ → first.info_ = second.info_ → first = second) ∧
    ∀ tm, ∃ expired : List Ele,
      (∀ ele, ele ∈ expired ↔ Pending events ele ∧ ele.tm_ ≤ tm) ∧
      (expired.Pairwise fun first second => first.dueBefore second = true) ∧
      ((Timer.run events).expire tm).2 = expired.map (fun ele => (ele.id_, ele.info_)) ∧
      (∀ ele, ele ∈ ((Timer.run events).expire tm).1.timer_ ↔ Pending events ele ∧ tm < ele.tm_) ∧
      ∀ ele, ele ∈ ((Timer.run events).expire tm).1.iter_ ↔ Pending events ele ∧ tm < ele.tm_ := by
  have holds := Timer.run_holds events
  refine ⟨holds.memTimer_, holds.memIter_, ?_, fun tm => ?_⟩
  · intro first second member otherMember sameId sameInfo
    exact holds.unique member otherMember (Ele.slot_eq_iff.mpr ⟨sameId, sameInfo⟩)
  · obtain ⟨after, pushed⟩ := holds.expire tm
    simp only [not_le] at after
    refine ⟨_, fun ele => ?_, ?_, pushed, after.memTimer_, after.memIter_⟩
    · rw [List.mem_filter, decide_eq_true_eq, KeySorted.mem_elements, holds.memIter_]
    · exact ((Timer.run events).iter_.sorted.filter _).imp fun less => Ele.dueBefore_iff.mpr less

end Timers

end LuaServer
