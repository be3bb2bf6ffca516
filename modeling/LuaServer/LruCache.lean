import LuaServer.ByteStrings
import LuaServer.MachineIntegers
import LuaServer.RunConditions
import Mathlib.Data.Finset.Card
import Mathlib.Data.List.Pairwise
import Mathlib.Logic.Function.Basic

/-!
# The LRU cache

`create_lru` keeps the values of a cache in a Lua table and the order of their last
use in the `Lru` of the C++ library: a list of keys, the last used one in front, and
for each key the iterator of its node.  An eviction comes back to Lua as the evicted
key, or as the empty string when nothing was evicted.  Lua takes that string for
nothing, so the two stay equal until the empty key is the one to be evicted.
-/

namespace LuaServer

open MachineIntegers RunConditions

/-- A node of `list<string>`.  An iterator is the address of its node. -/
structure Node where
  address : Nat
  id : ByteString
  deriving DecidableEq, Repr

/-- `struct Lru`, and the address of the next node. -/
structure Lru where
  ids_ : List Node
  it_ : ByteString → Option Nat
  num_ : Int
  fresh : Nat

namespace Lru

/-- `Lru::del`. -/
def del (lru : Lru) (id : ByteString) : Lru :=
  match lru.it_ id with
  | none => lru
  | some it =>
      { lru with
        ids_ := lru.ids_.filter fun node => node.address ≠ it
        it_ := Function.update lru.it_ id none }

/-- `Lru::evict`, and what is in `evi` after it. -/
def evict (lru : Lru) (evi : ByteString) : Lru × ByteString :=
  if (lru.ids_.length : Int) ≤ toSizeT lru.num_ then (lru, evi)
  else
    match lru.ids_.getLast? with
    | none => (lru, evi)
    | some node =>
        ({ lru with
          ids_ := lru.ids_.dropLast
          it_ := Function.update lru.it_ node.id none }, node.id)

/-- `Lru::update` with an empty `evi`. -/
def update (lru : Lru) (id : ByteString) : Lru × ByteString :=
  let lru := lru.del id
  evict
    { lru with
      ids_ := ⟨lru.fresh, id⟩ :: lru.ids_
      it_ := Function.update lru.it_ id (some lru.fresh)
      fresh := lru.fresh + 1 } []

end Lru

namespace Llru

/-- `Llru::create`. -/
def create (n : Int) : Option Lru :=
  let num := toInt32 n
  if num ≤ 0 then none else some ⟨[], fun _ => none, num, 0⟩

/-- `Llru::update`: the empty string does not come back. -/
def update (lru : Lru) (id : ByteString) : Lru × Option ByteString :=
  let (lru, evict) := lru.update id
  (lru, if evict.length = 0 then none else some evict)

end Llru

/-- What `create_lru` returns: the table `tb[1]` and the `lru` of its metatable.  No
value is `nil` or `false`. -/
structure LruCache (Value : Type*) where
  table : ByteString → Option Value
  lru : Lru

/-- A use of the cache: `obj[k]`, `obj[k] = v` and `obj[k] = nil`. -/
inductive Access (Value : Type*) where
  | read (k : ByteString)
  | write (k : ByteString) (v : Value)
  | delete (k : ByteString)

namespace LruCache

variable {Value : Type*}

/-- `create_lru`.  Where the library makes no `Lru`, there is no cache to use. -/
def createLru (num : Int) : Option (LruCache Value) :=
  (Llru.create num).map fun lru => ⟨fun _ => none, lru⟩

/-- `__index`. -/
def index (tb : LruCache Value) (k : ByteString) : LruCache Value × Option Value :=
  match tb.table k with
  | none => (tb, none)
  | some v => ({ tb with lru := (Llru.update tb.lru k).1 }, some v)

/-- `__newindex`; no value is `nil`. -/
def newindex (tb : LruCache Value) (k : ByteString) (v : Option Value) : LruCache Value :=
  match v with
  | some v =>
      let (lru, evict) := Llru.update tb.lru k
      let table :=
        match evict with
        | none => tb.table
        | some evict => Function.update tb.table evict none
      ⟨Function.update table k (some v), lru⟩
  | none => ⟨Function.update tb.table k none, tb.lru.del k⟩

/-- The cache after a use. -/
def step (tb : LruCache Value) : Access Value → LruCache Value
  | .read k => (tb.index k).1
  | .write k v => tb.newindex k (some v)
  | .delete k => tb.newindex k none

def run (tb : LruCache Value) (history : List (Access Value)) : LruCache Value :=
  history.foldl step tb

end LruCache

/-- A key is read or written. -/
def Access.Uses {Value : Type*} (k : ByteString) : Access Value → Prop
  | .read key => key = k
  | .write key _ => key = k
  | .delete _ => False

/-- The last use of one key comes after all uses of the other. -/
def UsedAfter {Value : Type*} (history : List (Access Value)) (earlier later : ByteString) :
    Prop :=
  ∃ before after, history = before ++ after ∧ (∃ access ∈ after, access.Uses later) ∧
    ∀ access ∈ after, ¬ access.Uses earlier

section Uses

variable {Value : Type*} {history : List (Access Value)} {access : Access Value}
  {earlier later : ByteString}

theorem usedAfter_concat (uses : access.Uses later) (apart : ¬ access.Uses earlier) :
    UsedAfter (history ++ [access]) earlier later :=
  ⟨history, [access], rfl, ⟨access, List.mem_singleton_self access, uses⟩, by simpa using apart⟩

theorem UsedAfter.concat (used : UsedAfter history earlier later)
    (apart : ¬ access.Uses earlier) : UsedAfter (history ++ [access]) earlier later := by
  obtain ⟨before, after, rfl, ⟨use, member, uses⟩, unused⟩ := used
  refine ⟨before, after ++ [access], by simp, ⟨use, by simp [member], uses⟩, ?_⟩
  intro other isMember
  rcases List.mem_append.mp isMember with old | last
  · exact unused other old
  · exact List.mem_singleton.mp last ▸ apart

end Uses

namespace Lru

/-- The iterators are those of the nodes. -/
structure Linked (lru : Lru) : Prop where
  iterators : ∀ id it, lru.it_ id = some it ↔ ⟨it, id⟩ ∈ lru.ids_
  apart : lru.ids_.Pairwise fun first second => first.address ≠ second.address
  below : ∀ node ∈ lru.ids_, node.address < lru.fresh

namespace Linked

variable {lru : Lru} {id : ByteString}

theorem eq_of_address (linked : lru.Linked) {first second : Node} (isFirst : first ∈ lru.ids_)
    (isSecond : second ∈ lru.ids_) (same : first.address = second.address) :
    first = second := by
  by_contra differ
  have symmetric : Std.Symm fun first second : Node => first.address ≠ second.address :=
    ⟨fun _ _ => Ne.symm⟩
  exact linked.apart.forall isFirst isSecond differ same

theorem eq_of_id (linked : lru.Linked) {first second : Node} (isFirst : first ∈ lru.ids_)
    (isSecond : second ∈ lru.ids_) (same : first.id = second.id) : first = second := by
  have atFirst := (linked.iterators first.id first.address).mpr isFirst
  have atSecond := (linked.iterators second.id second.address).mpr isSecond
  rw [same, atSecond] at atFirst
  exact linked.eq_of_address isFirst isSecond (Option.some.inj atFirst).symm

theorem ids_apart (linked : lru.Linked) :
    lru.ids_.Pairwise fun first second => first.id ≠ second.id := by
  refine linked.apart.imp_of_mem fun isFirst isSecond differ same => ?_
  exact differ (congrArg Node.address (linked.eq_of_id isFirst isSecond same))

theorem isSome_iff (linked : lru.Linked) :
    (lru.it_ id).isSome = true ↔ ∃ node ∈ lru.ids_, node.id = id := by
  constructor
  · intro isSome
    obtain ⟨it, found⟩ := Option.isSome_iff_exists.mp isSome
    exact ⟨⟨it, id⟩, (linked.iterators id it).mp found, rfl⟩
  · rintro ⟨node, member, rfl⟩
    exact Option.isSome_iff_exists.mpr ⟨_, (linked.iterators _ _).mpr member⟩

theorem del_ids_ (linked : lru.Linked) (id : ByteString) :
    (lru.del id).ids_ = lru.ids_.filter fun node => node.id ≠ id := by
  unfold Lru.del
  cases found : lru.it_ id with
  | none =>
      refine (List.filter_eq_self.mpr fun node member => ?_).symm
      have absent : ¬ ∃ node ∈ lru.ids_, node.id = id := by
        rw [← linked.isSome_iff, found]
        simp
      simpa using fun same => absent ⟨node, member, same⟩
  | some it =>
      have member := (linked.iterators id it).mp found
      refine List.filter_congr fun node isNode => ?_
      rw [decide_eq_decide]
      refine not_congr ⟨fun same => ?_, fun same => ?_⟩
      · rw [linked.eq_of_address isNode member same]
      · have atNode := (linked.iterators node.id node.address).mpr isNode
        rw [same, found] at atNode
        exact (Option.some.inj atNode).symm

theorem del_it_ (lru : Lru) (id : ByteString) :
    (lru.del id).it_ = Function.update lru.it_ id none := by
  unfold Lru.del
  cases found : lru.it_ id with
  | none =>
      have same := Function.update_eq_self id lru.it_
      rw [found] at same
      exact same.symm
  | some it => rfl

theorem del_num_ (lru : Lru) (id : ByteString) :
    (lru.del id).num_ = lru.num_ ∧ (lru.del id).fresh = lru.fresh := by
  unfold Lru.del
  cases lru.it_ id <;> exact ⟨rfl, rfl⟩

theorem restrict (linked : lru.Linked) {less : Lru} {ids : List Node} (id : ByteString)
    (isIds : less.ids_ = ids) (kept : ids.Sublist lru.ids_)
    (left : ∀ node ∈ lru.ids_, node ∈ ids ↔ node.id ≠ id)
    (isIt : less.it_ = Function.update lru.it_ id none) (isFresh : less.fresh = lru.fresh) :
    less.Linked := by
  subst isIds
  refine ⟨fun other it => ?_, linked.apart.sublist kept, fun node member => ?_⟩
  · rw [isIt]
    by_cases same : other = id
    · subst same
      rw [Function.update_self]
      refine iff_of_false (by simp) fun member => ?_
      exact (left _ (kept.subset member)).mp member rfl
    · rw [Function.update_of_ne same, linked.iterators]
      exact ⟨fun member => (left _ member).mpr same, fun member => kept.subset member⟩
  · rw [isFresh]
    exact linked.below node (kept.subset member)

theorem del (linked : lru.Linked) (id : ByteString) : (lru.del id).Linked := by
  apply linked.restrict id (linked.del_ids_ id) List.filter_sublist
  · intro node member
    simp [List.mem_filter, member]
  · exact del_it_ lru id
  · exact (del_num_ lru id).2

theorem push_front (linked : lru.Linked) (new : ∀ node ∈ lru.ids_, node.id ≠ id) :
    Linked
      { lru with
        ids_ := ⟨lru.fresh, id⟩ :: lru.ids_
        it_ := Function.update lru.it_ id (some lru.fresh)
        fresh := lru.fresh + 1 } := by
  refine ⟨fun other it => ?_, ?_, ?_⟩
  · by_cases same : other = id
    · subst same
      have absent : ∀ it, ⟨it, other⟩ ∉ lru.ids_ := fun it member => new _ member rfl
      simp only [Function.update_self, Option.some.injEq, List.mem_cons, Node.mk.injEq, and_true,
        absent, or_false]
      exact eq_comm
    · simp only [Function.update_of_ne same, linked.iterators, List.mem_cons, Node.mk.injEq, same,
        and_false, false_or]
  · exact List.pairwise_cons.mpr ⟨fun node member => (linked.below node member).ne', linked.apart⟩
  · intro node member
    rcases List.mem_cons.mp member with rfl | old
    · exact Nat.lt_succ_self _
    · exact Nat.lt_succ_of_lt (linked.below node old)

theorem evict (linked : lru.Linked) {front : List Node} {last : Node} {evi : ByteString}
    (isLast : lru.ids_ = front ++ [last]) (full : ¬ (lru.ids_.length : Int) ≤ toSizeT lru.num_) :
    (lru.evict evi).1.Linked ∧ (lru.evict evi).1.ids_ = front ∧
      (lru.evict evi).1.num_ = lru.num_ ∧ (lru.evict evi).2 = last.id := by
  have evicts : lru.evict evi =
      ({ lru with ids_ := front, it_ := Function.update lru.it_ last.id none }, last.id) := by
    unfold Lru.evict
    rw [if_neg full]
    simp [isLast]
  rw [evicts]
  refine ⟨linked.restrict last.id rfl ?_ ?_ rfl rfl, rfl, rfl, rfl⟩
  · rw [isLast]
    exact List.sublist_append_left front [last]
  · intro node member
    have apart := linked.ids_apart
    rw [isLast] at apart member
    constructor
    · intro inFront same
      exact (List.pairwise_append.mp apart).2.2 node inFront last (by simp) same
    · intro differ
      rcases List.mem_append.mp member with inFront | atEnd
      · exact inFront
      · exact absurd (congrArg Node.id (List.mem_singleton.mp atEnd)) differ

end Linked

end Lru

section Updates

variable {lru : Lru} {num : Nat}

/-- The ids but one, in the order of their use. -/
def Lru.others (lru : Lru) (id : ByteString) : List Node :=
  lru.ids_.filter fun node => node.id ≠ id

/-- An update puts the id in front, and evicts the last of the others if there are too
many of them. -/
theorem Lru.Linked.update (linked : lru.Linked) (isNum : lru.num_ = num) (small : num < 2 ^ 63)
    (positive : 0 < num) (fits : lru.ids_.length ≤ num) (id : ByteString) :
    (lru.update id).1.Linked ∧ (lru.update id).1.num_ = num ∧
      ((lru.others id).length < num ∧
          (lru.update id).1.ids_ = ⟨lru.fresh, id⟩ :: lru.others id ∧ (lru.update id).2 = [] ∨
        ∃ front last, lru.others id = front ++ [last] ∧ front.length + 1 = num ∧
          (lru.update id).1.ids_ = ⟨lru.fresh, id⟩ :: front ∧ (lru.update id).2 = last.id) := by
  have deleted := linked.del id
  have sameNum := (Lru.Linked.del_num_ lru id).1
  have sameFresh := (Lru.Linked.del_num_ lru id).2
  have kept : (lru.del id).ids_ = lru.others id := linked.del_ids_ id
  have new : ∀ node ∈ (lru.del id).ids_, node.id ≠ id := by
    intro node member
    rw [kept, Lru.others, List.mem_filter] at member
    simpa using member.2
  have pushed := deleted.push_front new
  have fewer : (lru.others id).length ≤ num := (List.length_filter_le _ _).trans fits
  have sizes : toSizeT (lru.del id).num_ = num := by
    rw [sameNum, isNum]
    exact Int.emod_eq_of_lt (by omega) (by norm_num at small ⊢; omega)
  by_cases room : (lru.others id).length < num
  · have stays : lru.update id =
        ({ (lru.del id) with
          ids_ := ⟨(lru.del id).fresh, id⟩ :: (lru.del id).ids_
          it_ := Function.update (lru.del id).it_ id (some (lru.del id).fresh)
          fresh := (lru.del id).fresh + 1 }, []) := by
      unfold Lru.update Lru.evict
      rw [if_pos]
      simp only [List.length_cons, kept, sizes]
      omega
    rw [stays]
    exact ⟨pushed, sameNum.trans isNum, Or.inl ⟨room, by simp only [kept, sameFresh], rfl⟩⟩
  · have notEmpty : lru.others id ≠ [] := by
      intro isEmpty
      rw [isEmpty] at room
      exact room positive
    obtain ⟨front, last, isLast⟩ : ∃ front last, lru.others id = front ++ [last] :=
      ⟨_, _, (List.dropLast_append_getLast notEmpty).symm⟩
    have length : front.length + 1 = num := by
      rw [isLast] at room fewer
      simp only [List.length_append, List.length_singleton] at room fewer
      omega
    obtain ⟨evicted, ids, evictedNum, evi⟩ :=
      @evict _ pushed (⟨(lru.del id).fresh, id⟩ :: front) last []
      (by simp only [kept, isLast, List.cons_append])
      (by
        simp only [List.length_cons, kept, isLast, sizes, List.length_append, List.length_nil]
        omega)
    exact ⟨evicted, evictedNum.trans (sameNum.trans isNum),
      Or.inr ⟨front, last, isLast, length, by rw [← sameFresh]; exact ids, evi⟩⟩

end Updates

namespace LruCache

variable {Value : Type*} {tb : LruCache Value} {num : Nat} {history : List (Access Value)}

/-- The table and the `Lru` agree, and the list is in the order of the last uses. -/
structure Holds (tb : LruCache Value) (num : Nat) (history : List (Access Value)) : Prop where
  linked : tb.lru.Linked
  isNum : tb.lru.num_ = num
  range : 0 < num ∧ num < 2 ^ 63
  fits : tb.lru.ids_.length ≤ num
  keys : ∀ k, (tb.table k).isSome = true ↔ ∃ node ∈ tb.lru.ids_, node.id = k
  recent : tb.lru.ids_.Pairwise fun first second => UsedAfter history second.id first.id

/-- A write that makes room by evicting the empty string. -/
def EvictsEmpty (tb : LruCache Value) : Access Value → Prop
  | .write k _ =>
      tb.lru.num_ ≤ (tb.lru.others k).length ∧
        (tb.lru.others k).getLast?.map Node.id = some []
  | _ => False

instance (tb : LruCache Value) : DecidablePred tb.EvictsEmpty
  | .write .. => inferInstanceAs (Decidable (_ ∧ _))
  | .read _ | .delete _ => inferInstanceAs (Decidable False)

/-- What is asked of the cache after a history: the table and the `Lru` have the same
keys, at most `n` of them, and a key that a write removes is the one whose last use is
the longest ago. -/
structure Exact (tb : LruCache Value) (n : Int) (history : List (Access Value)) : Prop where
  keys : ∀ k, ((tb.run history).table k).isSome = true ↔
    ∃ node ∈ (tb.run history).lru.ids_, node.id = k
  iterators : ∀ k, ((tb.run history).table k).isSome = true ↔
    ((tb.run history).lru.it_ k).isSome = true
  bounded : ∃ keys : Finset ByteString, (keys.card : Int) ≤ n ∧
    ∀ k, k ∈ keys ↔ ((tb.run history).table k).isSome = true
  evicts : ∀ before k v, history = before ++ [.write k v] → ∀ evicted,
    ((tb.run before).table evicted).isSome = true → (tb.run history).table evicted = none →
      ∀ other, ((tb.run before).table other).isSome = true → other ≠ evicted →
        UsedAfter before evicted other

theorem run_concat (tb : LruCache Value) (history : List (Access Value))
    (access : Access Value) : tb.run (history ++ [access]) = (tb.run history).step access := by
  simp [run]

namespace Holds

variable {access : Access Value}

theorem create {n : Int} (made : createLru n = some tb) : tb.Holds (toInt32 n).toNat [] := by
  simp only [createLru, Llru.create, Option.map_eq_some_iff] at made
  obtain ⟨lru, isLru, rfl⟩ := made
  split at isLru
  · simp at isLru
  next positive =>
    obtain rfl := Option.some.inj isLru
    have upper := Int.bmod_lt (x := n) (m := 2 ^ 32) (by norm_num)
    norm_num at upper
    refine ⟨⟨fun id it => by simp, List.Pairwise.nil, by simp⟩, ?_, ⟨by omega, ?_⟩, by simp,
      by simp, List.Pairwise.nil⟩
    · simp only
      omega
    · simp only [toInt32, toSigned]
      norm_num
      omega

theorem recent_concat (holds : tb.Holds num history) {ids : List Node}
    (kept : ids.Sublist tb.lru.ids_) (apart : ∀ node ∈ ids, ¬ access.Uses node.id) :
    ids.Pairwise fun first second => UsedAfter (history ++ [access]) second.id first.id := by
  refine (holds.recent.sublist kept).imp_of_mem fun _ isSecond used => ?_
  exact used.concat (apart _ isSecond)

theorem others_apart {lru : Lru} {k : ByteString} : ∀ node ∈ lru.others k, node.id ≠ k := by
  intro node member
  simpa using (List.mem_filter.mp member).2

theorem delete (holds : tb.Holds num history) (k : ByteString) :
    (tb.step (.delete k)).Holds num (history ++ [.delete k]) := by
  have kept : (tb.lru.del k).ids_ = tb.lru.others k := holds.linked.del_ids_ k
  refine ⟨holds.linked.del k, (Lru.Linked.del_num_ tb.lru k).1.trans holds.isNum,
    holds.range, ?_, ?_, ?_⟩
  · exact kept ▸ (List.length_filter_le _ _).trans holds.fits
  · intro other
    simp only [step, newindex, kept]
    by_cases same : other = k
    · subst same
      rw [Function.update_self]
      refine iff_of_false (by simp) ?_
      rintro ⟨node, member, isKey⟩
      exact others_apart node member isKey
    · rw [Function.update_of_ne same, holds.keys]
      refine exists_congr fun node => and_congr_left fun isKey => ?_
      simp [Lru.others, isKey, same]
  · show (tb.lru.del k).ids_.Pairwise _
    rw [kept]
    exact holds.recent_concat List.filter_sublist fun _ _ => id

/-- Reading a key that is there puts it in front. -/
theorem read (holds : tb.Holds num history) (k : ByteString) :
    (tb.step (.read k)).Holds num (history ++ [.read k]) := by
  cases found : tb.table k with
  | none =>
      have same : tb.step (.read k) = tb := by simp [step, index, found]
      rw [same]
      have absent : ∀ node ∈ tb.lru.ids_, ¬ k = node.id := by
        intro node member isKey
        have present := (holds.keys k).mpr ⟨node, member, isKey.symm⟩
        simp [found] at present
      exact ⟨holds.linked, holds.isNum, holds.range, holds.fits, holds.keys,
        holds.recent_concat (List.Sublist.refl _) absent⟩
  | some v =>
      have isStep : tb.step (.read k) = { tb with lru := (tb.lru.update k).1 } := by
        simp [step, index, found, Llru.update]
      obtain ⟨here, isHere, isKey⟩ := (holds.keys k).mp (by simp [found])
      have fewer : (tb.lru.others k).length < num := by
        refine lt_of_lt_of_le ?_ holds.fits
        exact List.length_filter_lt_length_iff_exists.mpr ⟨here, isHere, by simp [isKey]⟩
      obtain ⟨linked, sameNum, ⟨-, ids, -⟩ | ⟨front, last, isLast, length, -⟩⟩ :=
        holds.linked.update holds.isNum holds.range.2 holds.range.1 holds.fits k
      · rw [isStep]
        refine ⟨linked, sameNum, holds.range, ?_, ?_, ?_⟩
        · simp only [ids, List.length_cons]
          omega
        · intro other
          rw [holds.keys, ids]
          by_cases same : other = k
          · subst same
            exact iff_of_true ⟨here, isHere, isKey⟩ ⟨_, List.mem_cons_self, rfl⟩
          · refine exists_congr fun node => and_congr_left fun isOther => ?_
            have notFront : node ≠ ⟨tb.lru.fresh, k⟩ := by
              rintro rfl
              exact same isOther.symm
            simp [Lru.others, notFront, isOther, same]
        · rw [ids]
          refine List.pairwise_cons.mpr ⟨fun node member => ?_, ?_⟩
          · exact usedAfter_concat rfl fun same => others_apart node member same.symm
          · exact holds.recent_concat List.filter_sublist fun node member same =>
              others_apart node member same.symm
      · rw [isLast, List.length_append, List.length_singleton] at fewer
        omega

theorem recent_write (holds : tb.Holds num history) (k : ByteString) (v : Value)
    {ids : List Node} (kept : ids.Sublist (tb.lru.others k)) :
    (⟨tb.lru.fresh, k⟩ :: ids).Pairwise fun first second =>
      UsedAfter (history ++ [.write k v]) second.id first.id := by
  refine List.pairwise_cons.mpr ⟨fun node member => ?_, ?_⟩
  · exact usedAfter_concat rfl fun same => others_apart node (kept.subset member) same.symm
  · exact holds.recent_concat (kept.trans List.filter_sublist) fun node member same =>
      others_apart node (kept.subset member) same.symm

theorem write_room (holds : tb.Holds num history) (k : ByteString) (v : Value)
    (linked : (tb.lru.update k).1.Linked) (sameNum : (tb.lru.update k).1.num_ = num)
    (room : (tb.lru.others k).length < num)
    (ids : (tb.lru.update k).1.ids_ = ⟨tb.lru.fresh, k⟩ :: tb.lru.others k)
    (evi : (tb.lru.update k).2 = []) :
    (tb.step (.write k v)).Holds num (history ++ [.write k v]) ∧
      ∀ evicted, (tb.table evicted).isSome = true →
        (tb.step (.write k v)).table evicted ≠ none := by
  have isStep : tb.step (.write k v) =
      ⟨Function.update tb.table k (some v), (tb.lru.update k).1⟩ := by
    simp [step, newindex, Llru.update, evi]
  rw [isStep]
  refine ⟨⟨linked, sameNum, holds.range, ?_, ?_, ?_⟩, ?_⟩
  · simp only [ids, List.length_cons]
    omega
  · intro other
    simp only [ids]
    by_cases same : other = k
    · subst same
      exact iff_of_true (by simp) ⟨_, List.mem_cons_self, rfl⟩
    · rw [Function.update_of_ne same, holds.keys]
      refine exists_congr fun node => and_congr_left fun isOther => ?_
      have notFront : node ≠ ⟨tb.lru.fresh, k⟩ := by
        rintro rfl
        exact same isOther.symm
      simp [Lru.others, notFront, isOther, same]
  · rw [ids]
    exact holds.recent_write k v (List.Sublist.refl _)
  · intro evicted present
    by_cases same : evicted = k
    · simp [same]
    · simp only [Function.update_of_ne same]
      rintro gone
      simp [gone] at present

theorem write_full (holds : tb.Holds num history) (k : ByteString) (v : Value)
    (linked : (tb.lru.update k).1.Linked) (sameNum : (tb.lru.update k).1.num_ = num)
    {front : List Node} {last : Node} (isLast : tb.lru.others k = front ++ [last])
    (length : front.length + 1 = num)
    (ids : (tb.lru.update k).1.ids_ = ⟨tb.lru.fresh, k⟩ :: front)
    (evi : (tb.lru.update k).2 = last.id) (notEmpty : last.id ≠ []) :
    (tb.step (.write k v)).Holds num (history ++ [.write k v]) ∧
      ∀ evicted, (tb.table evicted).isSome = true →
        (tb.step (.write k v)).table evicted = none →
          ∀ other, (tb.table other).isSome = true → other ≠ evicted →
            UsedAfter history evicted other := by
  -- The list is full without `k`, so `k` is not in it.
  have allOthers : tb.lru.ids_ = front ++ [last] := by
    rw [← isLast]
    apply (List.Sublist.eq_of_length_le List.filter_sublist _).symm
    have fits := holds.fits
    have fullOthers := congrArg List.length isLast
    simp only [Lru.others, List.length_append, List.length_singleton] at fullOthers
    omega
  have apart := holds.linked.ids_apart
  have recent := holds.recent
  rw [allOthers] at apart recent
  have members : ∀ other, (tb.table other).isSome = true ↔
      (∃ node ∈ front, node.id = other) ∨ last.id = other := by
    intro other
    rw [holds.keys, allOthers]
    simp [or_and_right, exists_or]
  have isStep : tb.step (.write k v) =
      ⟨Function.update (Function.update tb.table last.id none) k (some v),
        (tb.lru.update k).1⟩ := by
    have something : ¬ last.id.length = 0 := by simpa using notEmpty
    simp [step, newindex, Llru.update, evi, something]
  rw [isStep]
  refine ⟨⟨linked, sameNum, holds.range, ?_, ?_, ?_⟩, ?_⟩
  · simp only [ids, List.length_cons]
    omega
  · intro other
    simp only [ids]
    by_cases same : other = k
    · subst same
      exact iff_of_true (by simp) ⟨_, List.mem_cons_self, rfl⟩
    rw [Function.update_of_ne same]
    by_cases isEvicted : other = last.id
    · subst isEvicted
      rw [Function.update_self]
      refine iff_of_false (by simp) ?_
      rintro ⟨node, member, isOther⟩
      rcases List.mem_cons.mp member with rfl | inFront
      · exact same isOther.symm
      · exact (List.pairwise_append.mp apart).2.2 node inFront last (by simp) isOther
    · rw [Function.update_of_ne isEvicted, members]
      simp [Ne.symm same, Ne.symm isEvicted]
  · rw [ids]
    exact holds.recent_write k v (isLast ▸ List.sublist_append_left front [last])
  · intro evicted present gone other isOther differ
    have isEvicted : evicted = last.id := by
      by_contra notEvicted
      by_cases same : evicted = k
      · simp [same] at gone
      · simp only [Function.update_of_ne same, Function.update_of_ne notEvicted] at gone
        simp [gone] at present
    subst isEvicted
    obtain ⟨node, member, rfl⟩ := ((members other).mp isOther).resolve_right (Ne.symm differ)
    exact (List.pairwise_append.mp recent).2.2 node member last (by simp)

/-- What a write does, if it does not evict the empty string. -/
theorem write (holds : tb.Holds num history) (k : ByteString) (v : Value)
    (quiet : ¬ tb.EvictsEmpty (.write k v)) :
    (tb.step (.write k v)).Holds num (history ++ [.write k v]) ∧
      ∀ evicted, (tb.table evicted).isSome = true →
        (tb.step (.write k v)).table evicted = none →
          ∀ other, (tb.table other).isSome = true → other ≠ evicted →
            UsedAfter history evicted other := by
  obtain ⟨linked, sameNum, ⟨room, ids, evi⟩ | ⟨front, last, isLast, length, ids, evi⟩⟩ :=
    holds.linked.update holds.isNum holds.range.2 holds.range.1 holds.fits k
  · obtain ⟨after, stays⟩ := holds.write_room k v linked sameNum room ids evi
    exact ⟨after, fun evicted present gone => absurd gone (stays evicted present)⟩
  · apply holds.write_full k v linked sameNum isLast length ids evi
    intro isEmpty
    refine quiet ⟨?_, by simp [isLast, isEmpty]⟩
    rw [holds.isNum, isLast, List.length_append, List.length_singleton, length]

/-- The evicted empty string stays in the table. -/
theorem not_keys_of_evictsEmpty (holds : tb.Holds num history) {access : Access Value}
    (evicts : tb.EvictsEmpty access) :
    ((tb.step access).table []).isSome = true ∧
      ¬ ∃ node ∈ (tb.step access).lru.ids_, node.id = [] := by
  cases access with
  | read k => exact evicts.elim
  | delete k => exact evicts.elim
  | write k v =>
      obtain ⟨full, isEmpty⟩ := evicts
      rw [holds.isNum] at full
      obtain ⟨linked, -, ⟨room, -, -⟩ | ⟨front, last, isLast, -, ids, evi⟩⟩ :=
        holds.linked.update holds.isNum holds.range.2 holds.range.1 holds.fits k
      · omega
      have lastEmpty : last.id = [] := by simpa [isLast] using isEmpty
      have lastMember : last ∈ tb.lru.others k := by simp [isLast]
      have notKey : [] ≠ k := lastEmpty ▸ others_apart last lastMember
      have apart : (tb.lru.others k).Pairwise _ :=
        holds.linked.ids_apart.sublist List.filter_sublist
      rw [isLast] at apart
      have isStep : tb.step (.write k v) =
          ⟨Function.update tb.table k (some v), (tb.lru.update k).1⟩ := by
        simp [step, newindex, Llru.update, evi, lastEmpty]
      rw [isStep]
      constructor
      · simp only [Function.update_of_ne notKey, holds.keys]
        exact ⟨last, (List.mem_filter.mp lastMember).1, lastEmpty⟩
      · rw [ids]
        rintro ⟨node, member, isOther⟩
        rcases List.mem_cons.mp member with rfl | inFront
        · exact notKey isOther.symm
        · exact (List.pairwise_append.mp apart).2.2 node inFront last (by simp)
            (isOther.trans lastEmpty.symm)

/-- Every use but one that evicts the empty string keeps the table and the `Lru` equal. -/
theorem step (holds : tb.Holds num history) {access : Access Value}
    (quiet : ¬ tb.EvictsEmpty access) : (tb.step access).Holds num (history ++ [access]) := by
  cases access with
  | read k => exact holds.read k
  | write k v => exact (holds.write k v quiet).1
  | delete k => exact holds.delete k

end Holds

/-- No use of the history evicts the empty string. -/
def KeepsEmpty (tb : LruCache Value) (history : List (Access Value)) : Prop :=
  ∀ before access after, history = before ++ access :: after →
    ¬ (tb.run before).EvictsEmpty access

theorem KeepsEmpty.of_append {before after : List (Access Value)}
    (keeps : tb.KeepsEmpty (before ++ after)) : tb.KeepsEmpty before := by
  rintro first access rest rfl
  exact keeps first access (rest ++ after) (by simp)

theorem holds_run {n : Int} (made : createLru n = some tb) (keeps : tb.KeepsEmpty history) :
    (tb.run history).Holds (toInt32 n).toNat history := by
  refine invariant_of_condition (fun before => (tb.run before).Holds (toInt32 n).toNat before)
    (Holds.create made) (fun before access holds _ stays => ?_) (fun _ _ => trivial) keeps
  rw [run_concat]
  exact holds.step stays

theorem exact_of_keepsEmpty {n : Int} (positive : 1 ≤ n) (made : createLru n = some tb)
    (keeps : tb.KeepsEmpty history) : tb.Exact n history := by
  have holds := holds_run made keeps
  refine ⟨holds.keys, fun k => (holds.keys k).trans holds.linked.isSome_iff.symm, ?_, ?_⟩
  · refine ⟨((tb.run history).lru.ids_.map Node.id).toFinset, ?_, fun k => ?_⟩
    · have card := List.toFinset_card_le ((tb.run history).lru.ids_.map Node.id)
      have fits := holds.fits
      have small := toInt32_le (by omega : 0 ≤ n)
      rw [List.length_map] at card
      omega
    · rw [holds.keys]
      simp
  · rintro first k v rfl evicted present gone other isOther differ
    rw [run_concat] at gone
    exact ((holds_run made keeps.of_append).write k v
      (keeps first _ [] rfl)).2 evicted present gone other isOther differ

/-- The table and the `Lru` of a cache stay equal and within the bound, and what a write
removes is the key whose last use is the longest ago, exactly as long as no write evicts
the empty string. -/
theorem exact_iff {n : Int} (positive : 1 ≤ n) (made : createLru n = some tb)
    (history : List (Access Value)) :
    (∀ before after, history = before ++ after → tb.Exact n before) ↔
      tb.KeepsEmpty history := by
  refine forall_good_iff tb.KeepsEmpty (fun first access after split => ?_)
    (fun before keeps => exact_of_keepsEmpty positive made keeps)
    (fun before access keeps _ stays => forall_splits_concat.mpr ⟨keeps, stays⟩)
    (fun before access keeps _ exact_ evicts => ?_) fun _ _ => trivial
  · simp at split
  · obtain ⟨stays, gone⟩ := (holds_run made keeps).not_keys_of_evictsEmpty evicts
    rw [← run_concat] at stays gone
    exact gone ((exact_.keys []).mp stays)

/-- An empty cache of a given number of keys. -/
def empty (num : Int) : LruCache Unit :=
  ⟨fun _ => none, ⟨[], fun _ => none, num, 0⟩⟩

/-- The third key evicts the first one. -/
theorem exact_iff_three : (empty 2).Exact 2 [.write [1] (), .write [2] (), .write [3] ()] := by
  refine (exact_iff (by decide) rfl _).mpr ?_ _ [] (List.append_nil _).symm
  simp only [KeepsEmpty, forall_splits_cons]
  exact ⟨by decide, by decide, by decide, forall_splits_nil⟩

/-- The empty key is evicted from the `Lru` alone, and a cache of one key holds two. -/
theorem not_exact_empty_key :
    createLru 1 = some (empty 1) ∧
      ¬ (empty 1).Exact 1 [.write [] (), .write [1] ()] := by
  refine ⟨rfl, fun exact_ => ?_⟩
  have present := (exact_.iterators []).mp (by decide)
  revert present
  decide

end LruCache

end LuaServer
