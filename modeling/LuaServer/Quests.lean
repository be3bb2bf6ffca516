import LuaServer.CellIndexes
import LuaServer.MachineIntegers
import LuaServer.RunConditions

/-!
# Quests and their index

A quest is finished when its number reaches its target.  The number comes from a handler
of its type, or adds up the amounts of the events of its type.  An index finds the
unfinished quests of a type, and is edited while it is traversed.  All of this agrees as
long as no sum leaves the integers of 64 bits.
-/

namespace LuaServer

namespace Quests

open MachineIntegers RunConditions

/-- `enums`. -/
inductive Status where
  | unfinish
  | finish
  deriving DecidableEq

/-- An array of integers whose first element is a type, and whose last one is the number
to reach or the amount to add. -/
structure Typed where
  elements : List Int
  notEmpty : elements ≠ []

def Typed.ttype (typed : Typed) : Int := typed.elements.head typed.notEmpty
def Typed.num (typed : Typed) : Int := typed.elements.getLast typed.notEmpty

/-- A quest, which is kept under its id. -/
structure Quest (QuestId : Type) where
  id : QuestId
  num : Int
  status : Status
  deriving DecidableEq

/-- `cfgs`, with the field `target` of each. -/
structure Configs (QuestId : Type) where
  ids : Finset QuestId
  target : QuestId → Typed

/-- An order in which `pairs` visits the keys of a table. -/
structure Pairs (QuestId : Type) where
  order : Finset QuestId → List QuestId
  nodup : ∀ ids, (order ids).Nodup
  mem_iff : ∀ ids qid, qid ∈ order ids ↔ qid ∈ ids

/-- `qobj`, whose fields are `nil` before the first `M.init_quests`. -/
structure QObj (QuestId : Type) where
  index : Option (CellIndex QuestId Int)
  quests : Option (QuestId → Option (Quest QuestId))

section Functions

variable {Obj QuestId : Type} [DecidableEq QuestId]
  (handler : Int → Option (Obj → Typed → Quest QuestId → Option Int))

/-- `count`, with the number that is given to the quest before it is compared. -/
def counted (obj : Obj) (quest : Quest QuestId) (cfgTarget : Typed) (addnum : Int) : Int :=
  match handler cfgTarget.ttype with
  | some handle => (handle obj cfgTarget quest).getD 0
  | none => toInt64 (quest.num + addnum)

/-- `count`, as the quest behind it. -/
def count (obj : Obj) (quest : Quest QuestId) (cfgTarget : Typed) (addnum : Int) :
    Quest QuestId :=
  let num := counted handler obj quest cfgTarget addnum
  let tnum := cfgTarget.num
  if num ≥ tnum then { quest with num := tnum, status := .finish }
  else { quest with num := num }

variable (cfgs : Configs QuestId)

/-- The quest that `M.init_quests` puts in. -/
def created (obj : Obj) (qid : QuestId) : Quest QuestId :=
  count handler obj ⟨qid, 0, .unfinish⟩ (cfgs.target qid) 0

/-- The body of the loop of `M.init_quests`. -/
def initBody (obj : Obj) (state : (QuestId → Option (Quest QuestId)) × CellIndex QuestId Int)
    (qid : QuestId) : (QuestId → Option (Quest QuestId)) × CellIndex QuestId Int :=
  match state.1 qid with
  | some _ => state
  | none =>
      let quest := created handler cfgs obj qid
      (Function.update state.1 qid (some quest),
        if quest.status = .unfinish then state.2.insertAt (cfgs.target qid).ttype qid else state.2)

/-- `M.init_quests`. -/
def initQuests (obj : Obj) (pairs : Pairs QuestId) (qobj : QObj QuestId) : QObj QuestId :=
  let state := (pairs.order cfgs.ids).foldl (initBody handler cfgs obj)
    (qobj.quests.getD fun _ => none, qobj.index.getD fun _ => none)
  ⟨some state.2, some state.1⟩

/-- What the loop of `M.count` works on. -/
structure Counting (QuestId : Type) where
  quests : QuestId → Option (Quest QuestId)
  index : CellIndex QuestId Int
  arr : List QuestId

/-- The body of the loop of `M.count`, which raises an error for a missing quest. -/
def countBody (obj : Obj) (ttype addnum : Int) (state : Counting QuestId) (qid : QuestId) :
    Option (Counting QuestId) := do
  let quest ← state.quests qid
  let after := count handler obj quest (cfgs.target qid) addnum
  return {
    quests := Function.update state.quests qid (some after)
    index := if after.status = .unfinish then state.index else state.index.eraseAt ttype qid
    arr := if after.num = quest.num then state.arr else state.arr ++ [qid] }

/-- `M.count` and the array it returns, which is `nil` when it is empty.  It raises an
error before the first `M.init_quests`. -/
def countEvent (obj : Obj) (event : Typed) (pairs : Pairs QuestId) (qobj : QObj QuestId) :
    Option (QObj QuestId × List QuestId) := do
  let index ← qobj.index
  let quests ← qobj.quests
  match index event.ttype with
  | none => return (qobj, [])
  | some idxQids =>
      let state ← (pairs.order idxQids).foldlM (countBody handler cfgs obj event.ttype event.num)
        ⟨quests, index, []⟩
      return (⟨some state.index, some state.quests⟩, state.arr)

end Functions

/-- The calls of a quest manager, each with its own order of the keys. -/
inductive Event (Obj QuestId : Type) where
  | initQuests (obj : Obj) (pairs : Pairs QuestId)
  | count (obj : Obj) (event : Typed) (pairs : Pairs QuestId)

section Runs

variable {Obj QuestId : Type} [DecidableEq QuestId]
  (handler : Int → Option (Obj → Typed → Quest QuestId → Option Int)) (cfgs : Configs QuestId)

/-- A call that raises an error before the first quests changes nothing. -/
def step (qobj : QObj QuestId) : Event Obj QuestId → QObj QuestId
  | .initQuests obj pairs => initQuests handler cfgs obj pairs qobj
  | .count obj event pairs =>
      match countEvent handler cfgs obj event pairs qobj with
      | none => qobj
      | some (qobj, _) => qobj

def run (history : List (Event Obj QuestId)) : QObj QuestId :=
  history.foldl (step handler cfgs) ⟨none, none⟩

/-- The sum of the amounts of a type's events since the quests have been created. -/
def tally (ttype : Int) (sum : Option Int) : Event Obj QuestId → Option Int
  | .initQuests _ _ => some (sum.getD 0)
  | .count _ event _ => if event.ttype = ttype then sum.map (· + event.num) else sum

def tallied (ttype : Int) (history : List (Event Obj QuestId)) : Option Int :=
  history.foldl (tally ttype) none

end Runs

namespace QObj

variable {QuestId : Type}

/-- `quests[qid]`. -/
def quest (qobj : QObj QuestId) (qid : QuestId) : Option (Quest QuestId) :=
  qobj.quests.bind fun quests => quests qid

/-- `index[ttype][qid]` is set. -/
def Indexed (qobj : QObj QuestId) (ttype : Int) (qid : QuestId) : Prop :=
  ∃ index, qobj.index = some index ∧ index.Holds ttype qid

end QObj

section Statements

variable {Obj QuestId : Type} [DecidableEq QuestId]
  (handler : Int → Option (Obj → Typed → Quest QuestId → Option Int)) (cfgs : Configs QuestId)

/-- What is asked of the quests after a history. -/
structure Exact (history : List (Event Obj QuestId)) (qobj : QObj QuestId) : Prop where
  index : ∀ ttype qid, qobj.Indexed ttype qid ↔ ∃ quest, qobj.quest qid = some quest ∧
    quest.status = .unfinish ∧ (cfgs.target qid).ttype = ttype
  notEmpty : ∀ index, qobj.index = some index → ∀ ttype, index ttype ≠ some ∅
  finished : ∀ qid quest, qobj.quest qid = some quest → quest.status = .finish →
    quest.num = (cfgs.target qid).num
  sums : ∀ qid quest, qobj.quest qid = some quest → handler (cfgs.target qid).ttype = none →
    ∃ sum, tallied (cfgs.target qid).ttype history = some sum ∧
      quest.num = min (cfgs.target qid).num sum ∧
        (quest.status = .finish ↔ (cfgs.target qid).num ≤ sum)

/-- What is asked of a call: a finished quest stays as it is, and `M.count` returns the
quests whose numbers it changes, among them those it finishes. -/
structure ExactCall (qobj : QObj QuestId) (call : Event Obj QuestId) : Prop where
  kept : ∀ qid quest, qobj.quest qid = some quest → quest.status = .finish →
    (step handler cfgs qobj call).quest qid = some quest
  returns : ∀ obj event pairs, call = .count obj event pairs → qobj.index.isSome →
    ∃ after arr, countEvent handler cfgs obj event pairs qobj = some (after, arr) ∧ arr.Nodup ∧
      (∀ qid, qid ∈ arr ↔ ∃ old new, qobj.quest qid = some old ∧ after.quest qid = some new ∧
        old.num ≠ new.num) ∧
      ∀ qid old new, qobj.quest qid = some old → after.quest qid = some new →
        old.status = .unfinish → new.status = .finish → qid ∈ arr

/-- The sums that `M.count` adds up are integers of 64 bits. -/
def Fits (qobj : QObj QuestId) : Event Obj QuestId → Prop
  | .initQuests _ _ => True
  | .count _ event _ => ∀ qid quest, qobj.quest qid = some quest → quest.status = .unfinish →
      (cfgs.target qid).ttype = event.ttype → handler event.ttype = none →
        quest.num + event.num < 2 ^ 63

/-- The amount of an event is an integer of 64 bits that is not negative. -/
def Event.Amount : Event Obj QuestId → Prop
  | .initQuests _ _ => True
  | .count _ event _ => 0 ≤ event.num ∧ event.num < 2 ^ 63

end Statements

section Counts

variable {Obj QuestId : Type}
  (handler : Int → Option (Obj → Typed → Quest QuestId → Option Int))

/-- A quest for its target, and for the sum of the amounts when its type has no handler. -/
structure Right (target : Typed) (sum : Int) (quest : Quest QuestId) : Prop where
  finished : quest.status = .finish → quest.num = target.num
  unfinished : quest.status = .unfinish → quest.num < target.num
  sums : handler target.ttype = none → quest.num = min target.num sum
  small : handler target.ttype = none → quest.status = .unfinish → quest.num < 2 ^ 63

variable {handler} {target : Typed} {quest : Quest QuestId} {sum amount : Int}

theorem Right.finished_iff (right : Right handler target sum quest)
    (noHandler : handler target.ttype = none) : quest.status = .finish ↔ target.num ≤ sum := by
  have isMin := right.sums noHandler
  cases isStatus : quest.status with
  | finish =>
      have atTarget := right.finished isStatus
      exact iff_of_true rfl (by omega)
  | unfinish =>
      have below := right.unfinished isStatus
      exact iff_of_false nofun (by omega)

theorem count_num (obj : Obj) : (count handler obj quest target amount).num =
    min target.num (counted handler obj quest target amount) := by
  unfold count
  dsimp only
  split
  next reached => exact (min_eq_left reached).symm
  next open_ => exact (min_eq_right (le_of_lt (not_le.mp open_))).symm

theorem count_finish (obj : Obj) (isOpen : quest.status = .unfinish) :
    (count handler obj quest target amount).status = .finish ↔
      target.num ≤ counted handler obj quest target amount := by
  unfold count
  dsimp only
  split
  next reached => exact iff_of_true rfl reached
  next open_ => exact iff_of_false (by rw [isOpen]; exact nofun) open_

/-- A sum of 64 bits is what the number and the amount add up to. -/
theorem counted_of_fits (obj : Obj) (noHandler : handler target.ttype = none)
    (nonneg : 0 ≤ quest.num + amount) (fits : quest.num + amount < 2 ^ 63) :
    counted handler obj quest target amount = quest.num + amount := by
  rw [counted, noHandler]
  apply Int.bmod_eq_of_le <;> norm_num at fits ⊢ <;> omega

/-- A sum that does not fit becomes negative. -/
theorem counted_of_not_fits (obj : Obj) (noHandler : handler target.ttype = none)
    (over_ : 2 ^ 63 ≤ quest.num + amount) (below : quest.num + amount < 2 ^ 64) :
    counted handler obj quest target amount < 0 := by
  rw [counted, noHandler]
  have wrapped : toInt64 (quest.num + amount) = quest.num + amount - 2 ^ 64 := by
    have same : toInt64 (quest.num + amount) = toInt64 (quest.num + amount - 2 ^ 64) :=
      (Int.sub_bmod_right (quest.num + amount) (2 ^ 64)).symm
    rw [same]
    apply Int.bmod_eq_of_le <;> norm_num at over_ below ⊢ <;> omega
  dsimp only
  omega

theorem count_of_finish (obj : Obj) (isOpen : quest.status = .unfinish)
    (isFinish : (count handler obj quest target amount).status = .finish) :
    (count handler obj quest target amount).num = target.num := by
  rw [count_num, min_eq_left ((count_finish obj isOpen).mp isFinish)]

theorem count_of_unfinish (obj : Obj) (isOpen : quest.status = .unfinish)
    (isUnfinish : (count handler obj quest target amount).status = .unfinish) :
    (count handler obj quest target amount).num < target.num := by
  rw [count_num]
  refine min_lt_iff.mpr (Or.inr (lt_of_not_ge fun reached => ?_))
  rw [(count_finish obj isOpen).mpr reached] at isUnfinish
  cases isUnfinish

theorem Right.more (right : Right handler target sum quest) (isFinish : quest.status = .finish)
    (amountNonneg : 0 ≤ amount) : Right handler target (sum + amount) quest := by
  refine ⟨right.finished, right.unfinished, fun noHandler => ?_, right.small⟩
  have isMin := right.sums noHandler
  have atTarget := right.finished isFinish
  omega

theorem Right.count (right : Right handler target sum quest) (isOpen : quest.status = .unfinish)
    (obj : Obj) (sumNonneg : 0 ≤ sum) (amountNonneg : 0 ≤ amount)
    (fits : handler target.ttype = none → quest.num + amount < 2 ^ 63) :
    Right handler target (sum + amount) (Quests.count handler obj quest target amount) := by
  refine ⟨count_of_finish obj isOpen, count_of_unfinish obj isOpen, fun noHandler => ?_,
    fun noHandler _ => ?_⟩ <;>
    have isMin := right.sums noHandler <;>
    have below := right.unfinished isOpen <;>
    have inRange := fits noHandler <;>
    rw [count_num, counted_of_fits obj noHandler (by omega) inRange] <;>
    omega

end Counts

section Loops

variable {Obj QuestId : Type} [DecidableEq QuestId]
  {handler : Int → Option (Obj → Typed → Quest QuestId → Option Int)} {cfgs : Configs QuestId}

/-- Where the index keeps a quest. -/
def placeOf (cfgs : Configs QuestId) (quests : QuestId → Option (Quest QuestId)) (qid : QuestId) :
    Option Int :=
  (quests qid).bind fun quest =>
    if quest.status = .unfinish then some (cfgs.target qid).ttype else none

omit [DecidableEq QuestId] in
theorem placeOf_eq_some {quests : QuestId → Option (Quest QuestId)} {qid : QuestId} {ttype : Int} :
    placeOf cfgs quests qid = some ttype ↔ ∃ quest, quests qid = some quest ∧
      quest.status = .unfinish ∧ (cfgs.target qid).ttype = ttype := by
  unfold placeOf
  cases isQuest : quests qid with
  | none => simp
  | some quest => by_cases isOpen : quest.status = .unfinish <;> simp [isOpen]

theorem placeOf_update (quests : QuestId → Option (Quest QuestId)) (qid : QuestId)
    (quest : Quest QuestId) : placeOf cfgs (Function.update quests qid (some quest)) =
      Function.update (placeOf cfgs quests) qid
        (if quest.status = .unfinish then some (cfgs.target qid).ttype else none) := by
  funext other
  by_cases same : other = qid
  · subst same
    simp [placeOf]
  · simp [placeOf, same]

theorem initBody_spec (obj : Obj) {quests : QuestId → Option (Quest QuestId)}
    {index : CellIndex QuestId Int} (places : index.Places (placeOf cfgs quests)) (qid : QuestId) :
    (initBody handler cfgs obj (quests, index) qid).2.Places
        (placeOf cfgs (initBody handler cfgs obj (quests, index) qid).1) ∧
      ∀ other, (initBody handler cfgs obj (quests, index) qid).1 other =
        (quests other).or
          (if other = qid then some (created handler cfgs obj other) else none) := by
  unfold initBody
  cases isQuest : quests qid with
  | some quest =>
      refine ⟨by simpa [isQuest] using places, fun other => ?_⟩
      by_cases same : other = qid
      · subst same
        simp [isQuest]
      · simp [isQuest, same]
  | none =>
      simp only [isQuest]
      constructor
      · rw [placeOf_update]
        split
        · exact places.insertAt _ (by simp [placeOf, isQuest])
        · rw [Function.update_eq_self_iff.mpr (by simp [placeOf, isQuest])]
          exact places
      · intro other
        by_cases same : other = qid
        · subst same
          simp [isQuest]
        · simp [same]

theorem init_loop (obj : Obj) (order : List QuestId) {quests : QuestId → Option (Quest QuestId)}
    {index : CellIndex QuestId Int} (places : index.Places (placeOf cfgs quests)) :
    (order.foldl (initBody handler cfgs obj) (quests, index)).2.Places
        (placeOf cfgs (order.foldl (initBody handler cfgs obj) (quests, index)).1) ∧
      ∀ qid, (order.foldl (initBody handler cfgs obj) (quests, index)).1 qid =
        (quests qid).or (if qid ∈ order then some (created handler cfgs obj qid) else none) := by
  induction order generalizing quests index with
  | nil => exact ⟨places, fun qid => by simp⟩
  | cons first order ih =>
      obtain ⟨firstPlaces, firstQuests⟩ :=
        @initBody_spec Obj QuestId _ handler cfgs obj _ _ places first
      obtain ⟨placesAfter, questsAfter⟩ := ih firstPlaces
      refine ⟨placesAfter, fun qid => ?_⟩
      rw [List.foldl_cons]
      refine (questsAfter qid).trans ?_
      rw [firstQuests, Option.or_assoc]
      congr 1
      by_cases isFirst : qid = first
      · simp [isFirst]
      · simp [isFirst]

/-- The quests behind the loop of `M.count`. -/
def questsAfter (handler : Int → Option (Obj → Typed → Quest QuestId → Option Int))
    (cfgs : Configs QuestId) (obj : Obj) (addnum : Int) (order : List QuestId)
    (quests : QuestId → Option (Quest QuestId)) (qid : QuestId) : Option (Quest QuestId) :=
  if qid ∈ order then (quests qid).map fun quest => count handler obj quest (cfgs.target qid) addnum
  else quests qid

/-- The number of the quest is changed by `count`. -/
def Changes (handler : Int → Option (Obj → Typed → Quest QuestId → Option Int))
    (cfgs : Configs QuestId) (obj : Obj) (addnum : Int)
    (quests : QuestId → Option (Quest QuestId)) (qid : QuestId) : Prop :=
  ∃ quest, quests qid = some quest ∧
    quest.num ≠ (count handler obj quest (cfgs.target qid) addnum).num

/-- One quest of the loop: it is counted, and it is announced when its number changes. -/
theorem countBody_spec (obj : Obj) {ttype : Int} (addnum : Int) {qid : QuestId}
    {quests : QuestId → Option (Quest QuestId)} {index : CellIndex QuestId Int}
    (places : index.Places (placeOf cfgs quests))
    (indexed : placeOf cfgs quests qid = some ttype) :
    ∃ quest after indexAfter, quests qid = some quest ∧
      count handler obj quest (cfgs.target qid) addnum = after ∧
      indexAfter.Places (placeOf cfgs (Function.update quests qid (some after))) ∧
      ∀ arr, countBody handler cfgs obj ttype addnum ⟨quests, index, arr⟩ qid =
        some ⟨Function.update quests qid (some after), indexAfter,
          arr ++ if after.num = quest.num then [] else [qid]⟩ := by
  obtain ⟨quest, isQuest, isOpen, isType⟩ := placeOf_eq_some.mp indexed
  refine ⟨quest, _, if (count handler obj quest (cfgs.target qid) addnum).status = .unfinish
    then index else index.eraseAt ttype qid, isQuest, rfl, ?_, fun arr => ?_⟩
  · rw [placeOf_update]
    split
    · rw [Function.update_eq_self_iff.mpr (isType ▸ indexed.symm)]
      exact places
    · exact places.eraseAt indexed
  · simp only [countBody, isQuest, Option.bind_eq_bind, Option.bind_some, Option.pure_def]
    congr 2
    split
    · rw [List.append_nil]
    · rfl

theorem questsAfter_cons {obj : Obj} {addnum : Int} {first : QuestId} {order : List QuestId}
    {quests : QuestId → Option (Quest QuestId)} {quest : Quest QuestId} (notLater : first ∉ order)
    (isQuest : quests first = some quest) :
    questsAfter handler cfgs obj addnum order (Function.update quests first
      (some (count handler obj quest (cfgs.target first) addnum))) =
        questsAfter handler cfgs obj addnum (first :: order) quests := by
  funext qid
  by_cases isFirst : qid = first
  · subst isFirst
    simp [questsAfter, notLater, isQuest]
  · simp [questsAfter, isFirst]

theorem count_loop (obj : Obj) {ttype : Int} (addnum : Int) {order : List QuestId}
    (once : order.Nodup) {quests : QuestId → Option (Quest QuestId)}
    {index : CellIndex QuestId Int} {arr : List QuestId}
    (places : index.Places (placeOf cfgs quests))
    (indexed : ∀ qid ∈ order, placeOf cfgs quests qid = some ttype) :
    ∃ final, order.foldlM (countBody handler cfgs obj ttype addnum) ⟨quests, index, arr⟩ =
        some final ∧ final.index.Places (placeOf cfgs final.quests) ∧
      final.quests = questsAfter handler cfgs obj addnum order quests ∧
      ∃ more, final.arr = arr ++ more ∧ more.Nodup ∧
        ∀ qid, qid ∈ more ↔ qid ∈ order ∧ Changes handler cfgs obj addnum quests qid := by
  induction order generalizing quests index arr with
  | nil =>
      refine ⟨⟨quests, index, arr⟩, rfl, places, ?_, [], by simp, List.nodup_nil, by simp⟩
      funext qid
      simp [questsAfter]
  | cons first order ih =>
      obtain ⟨notLater, onceLater⟩ := List.nodup_cons.mp once
      obtain ⟨quest, after, indexAfter, isQuest, counted, placesFirst, body⟩ :=
        @countBody_spec _ _ _ handler cfgs obj ttype addnum _ _ _ places (indexed first (by simp))
      have others : ∀ qid ∈ order, qid ≠ first := by
        rintro qid member rfl
        exact notLater member
      have indexedLater : ∀ qid ∈ order,
          placeOf cfgs (Function.update quests first (some after)) qid = some ttype := by
        intro qid member
        rw [placeOf_update, Function.update_of_ne (others qid member)]
        exact indexed qid (List.mem_cons_of_mem first member)
      obtain ⟨final, ran, placesFinal, questsFinal, later, arrFinal, onceMore, changes⟩ :=
        @ih onceLater _ _ (arr ++ if after.num = quest.num then [] else [first]) placesFirst
          indexedLater
      have sameLater : ∀ qid, qid ≠ first →
          (Changes handler cfgs obj addnum (Function.update quests first (some after)) qid ↔
            Changes handler cfgs obj addnum quests qid) := by
        intro qid isOther
        rw [Changes, Function.update_of_ne isOther, Changes]
      have changesHere : Changes handler cfgs obj addnum quests first ↔
          after.num ≠ quest.num := by
        simp [Changes, isQuest, counted, eq_comm]
      have questsWhole : final.quests =
          questsAfter handler cfgs obj addnum (first :: order) quests := by
        rw [questsFinal, ← counted, questsAfter_cons notLater isQuest]
      refine ⟨final, ?_, placesFinal, questsWhole, ?_⟩
      · rw [List.foldlM_cons, body]
        exact ran
      have laterOnly : first ∉ later := fun member => notLater ((changes first).mp member).1
      by_cases same : after.num = quest.num
      · -- The first quest is not announced.
        rw [if_pos same, List.append_nil] at arrFinal
        refine ⟨later, arrFinal, onceMore, fun qid => ?_⟩
        by_cases isFirst : qid = first
        · subst isFirst
          simp [laterOnly, changesHere, same]
        · rw [changes, sameLater qid isFirst, List.mem_cons, or_iff_right isFirst]
      · rw [if_neg same, List.append_assoc] at arrFinal
        refine ⟨first :: later, arrFinal, List.nodup_cons.mpr ⟨laterOnly, onceMore⟩, fun qid => ?_⟩
        by_cases isFirst : qid = first
        · subst isFirst
          simp [changesHere, same]
        · rw [List.mem_cons, List.mem_cons, or_iff_right isFirst, or_iff_right isFirst, changes,
            sameLater qid isFirst]

end Loops

section Runs

variable {Obj QuestId : Type} [DecidableEq QuestId]
  {handler : Int → Option (Obj → Typed → Quest QuestId → Option Int)} {cfgs : Configs QuestId}

/-- The state of a quest manager behind the first call of `M.init_quests`. -/
structure Kept (handler : Int → Option (Obj → Typed → Quest QuestId → Option Int))
    (cfgs : Configs QuestId) (history : List (Event Obj QuestId))
    (quests : QuestId → Option (Quest QuestId)) (index : CellIndex QuestId Int) : Prop where
  places : index.Places (placeOf cfgs quests)
  sums : ∀ ttype, ∃ sum, 0 ≤ sum ∧ tallied ttype history = some sum
  isCreated : ∀ qid ∈ cfgs.ids, ∃ quest, quests qid = some quest
  right : ∀ qid quest, quests qid = some quest → ∀ sum,
    tallied (cfgs.target qid).ttype history = some sum → Right handler (cfgs.target qid) sum quest

/-- The state of a quest manager. -/
def Sound (handler : Int → Option (Obj → Typed → Quest QuestId → Option Int))
    (cfgs : Configs QuestId) (history : List (Event Obj QuestId)) (qobj : QObj QuestId) : Prop :=
  qobj = ⟨none, none⟩ ∧ (∀ ttype, tallied ttype history = none) ∨
    ∃ index quests, qobj = ⟨some index, some quests⟩ ∧ Kept handler cfgs history quests index

variable {history : List (Event Obj QuestId)} {qobj : QObj QuestId}

omit [DecidableEq QuestId] in
theorem tallied_concat (ttype : Int) (history : List (Event Obj QuestId))
    (call : Event Obj QuestId) :
    tallied ttype (history ++ [call]) = tally ttype (tallied ttype history) call :=
  List.foldl_concat ..

omit [DecidableEq QuestId] in
theorem Sound.exact (sound : Sound handler cfgs history qobj) :
    Exact handler cfgs history qobj := by
  rcases sound with ⟨rfl, -⟩ | ⟨index, quests, rfl, kept⟩
  · exact ⟨fun ttype qid => by simp [QObj.Indexed, QObj.quest], fun index => nofun,
      fun qid quest => nofun, fun qid quest => nofun⟩
  · refine ⟨fun ttype qid => ?_, ?_, ?_, ?_⟩
    · have holds := kept.places.holds ttype qid
      rw [placeOf_eq_some] at holds
      simpa [QObj.Indexed, QObj.quest] using holds
    · rintro _ ⟨⟩
      exact kept.places.notEmpty
    · intro qid quest isQuest isFinish
      obtain ⟨sum, -, isSum⟩ := kept.sums (cfgs.target qid).ttype
      exact (kept.right qid quest isQuest sum isSum).finished isFinish
    · intro qid quest isQuest noHandler
      obtain ⟨sum, -, isSum⟩ := kept.sums (cfgs.target qid).ttype
      have right := kept.right qid quest isQuest sum isSum
      exact ⟨sum, isSum, right.sums noHandler, right.finished_iff noHandler⟩

omit [DecidableEq QuestId] in
theorem right_created (obj : Obj) (qid : QuestId) :
    Right handler (cfgs.target qid) 0 (created handler cfgs obj qid) := by
  have isMin : handler (cfgs.target qid).ttype = none →
      (created handler cfgs obj qid).num = min (cfgs.target qid).num 0 := by
    intro noHandler
    rw [created, count_num, counted_of_fits obj noHandler (le_refl _) (by norm_num)]
    rfl
  refine ⟨count_of_finish obj rfl, count_of_unfinish obj rfl, isMin, fun noHandler _ => ?_⟩
  rw [isMin noHandler]
  omega

theorem Sound.initQuests (sound : Sound handler cfgs history qobj) (obj : Obj)
    (pairs : Pairs QuestId) :
    Sound handler cfgs (history ++ [.initQuests obj pairs])
        (Quests.initQuests handler cfgs obj pairs qobj) ∧
      ∀ qid quest, qobj.quest qid = some quest →
        (Quests.initQuests handler cfgs obj pairs qobj).quest qid = some quest := by
  have tallies : ∀ ttype, tallied ttype (history ++ [.initQuests obj pairs]) =
      some ((tallied ttype history).getD 0) := fun ttype => tallied_concat ttype history _
  rcases sound with ⟨rfl, noSums⟩ | ⟨index, quests, rfl, kept⟩
  · obtain ⟨places, quests⟩ := @init_loop Obj QuestId _ handler cfgs obj (pairs.order cfgs.ids)
      (fun _ => none) (fun _ => none) CellIndex.places_empty
    refine ⟨Or.inr ⟨_, _, rfl, places, fun ttype => ⟨0, le_refl 0, ?_⟩, ?_, ?_⟩,
      fun qid quest => nofun⟩
    · rw [tallies, noSums]
      rfl
    · intro qid member
      exact ⟨created handler cfgs obj qid,
        (quests qid).trans (by simp [pairs.mem_iff, member])⟩
    · intro qid quest isQuest sum isSum
      rw [tallies, noSums] at isSum
      cases isSum
      have isNew := (quests qid).symm.trans isQuest
      simp only [Option.none_or] at isNew
      split at isNew
      · cases isNew
        exact right_created obj qid
      · cases isNew
  · obtain ⟨places, questsAfter⟩ :=
      @init_loop Obj QuestId _ handler cfgs obj (pairs.order cfgs.ids) _ _ kept.places
    have same : ((pairs.order cfgs.ids).foldl (initBody handler cfgs obj) (quests, index)).1 =
        quests := by
      funext qid
      rw [questsAfter]
      by_cases member : qid ∈ cfgs.ids
      · obtain ⟨quest, isQuest⟩ := kept.isCreated qid member
        rw [isQuest]
        rfl
      · rw [if_neg fun listed => member ((pairs.mem_iff _ qid).mp listed), Option.or_none]
    rw [same] at places
    have sameSums : ∀ ttype, tallied ttype (history ++ [.initQuests obj pairs]) =
        tallied ttype history := by
      intro ttype
      obtain ⟨sum, -, isSum⟩ := kept.sums ttype
      rw [tallies, isSum]
      rfl
    have state : Quests.initQuests handler cfgs obj pairs ⟨some index, some quests⟩ =
        ⟨some ((pairs.order cfgs.ids).foldl (initBody handler cfgs obj) (quests, index)).2,
          some quests⟩ := by
      rw [Quests.initQuests]
      simp only [Option.getD_some]
      rw [same]
    rw [state]
    refine ⟨Or.inr ⟨_, _, rfl, places, ?_, kept.isCreated, ?_⟩, fun qid quest isQuest => isQuest⟩
    · intro ttype
      rw [sameSums]
      exact kept.sums ttype
    · intro qid quest isQuest sum isSum
      rw [sameSums] at isSum
      exact kept.right qid quest isQuest sum isSum

theorem Kept.countEvent {quests : QuestId → Option (Quest QuestId)} {index : CellIndex QuestId Int}
    (kept : Kept handler cfgs history quests index) (obj : Obj) (event : Typed)
    (pairs : Pairs QuestId) :
    ∃ after indexAfter arr,
      Quests.countEvent handler cfgs obj event pairs ⟨some index, some quests⟩ =
        some (⟨some indexAfter, some after⟩, arr) ∧
      indexAfter.Places (placeOf cfgs after) ∧
      (∀ qid, after qid = if placeOf cfgs quests qid = some event.ttype then
        (quests qid).map fun quest => count handler obj quest (cfgs.target qid) event.num
        else quests qid) ∧
      arr.Nodup ∧ ∀ qid, qid ∈ arr ↔ placeOf cfgs quests qid = some event.ttype ∧
        Changes handler cfgs obj event.num quests qid := by
  cases isIndexed : index event.ttype with
  | none =>
      have nowhere : ∀ qid, placeOf cfgs quests qid ≠ some event.ttype := by
        intro qid isPlace
        obtain ⟨ids, isIds, -⟩ := (kept.places.holds event.ttype qid).mpr isPlace
        rw [isIndexed] at isIds
        cases isIds
      refine ⟨quests, index, [], by simp [Quests.countEvent, isIndexed], kept.places,
        fun qid => (if_neg (nowhere qid)).symm, List.nodup_nil, fun qid => ?_⟩
      exact iff_of_false List.not_mem_nil fun both => nowhere qid both.1
  | some ids =>
      have listed : ∀ qid, qid ∈ pairs.order ids ↔ placeOf cfgs quests qid = some event.ttype := by
        intro qid
        rw [pairs.mem_iff, ← kept.places.holds]
        simp [CellIndex.Holds, isIndexed]
      obtain ⟨final, ran, places, isAfter, more, isArr, once, changes⟩ :=
        @count_loop Obj QuestId _ handler cfgs obj event.ttype event.num _ (pairs.nodup ids) _ _ []
          kept.places fun qid member => (listed qid).mp member
      refine ⟨final.quests, final.index, final.arr, ?_, places, fun qid => ?_, ?_, fun qid => ?_⟩
      · simp [Quests.countEvent, isIndexed, ran]
      · rw [isAfter]
        simp only [questsAfter, listed]
      · rw [isArr]
        exact once
      · rw [isArr, List.nil_append, changes, listed]

/-- A call in a sound state keeps what is finished and returns what it changes. -/
theorem Sound.exactCall (sound : Sound handler cfgs history qobj) (call : Event Obj QuestId) :
    ExactCall handler cfgs qobj call := by
  cases call with
  | initQuests obj pairs =>
      exact ⟨fun qid quest isQuest _ => (sound.initQuests obj pairs).2 qid quest isQuest,
        fun _ _ _ => nofun⟩
  | count obj event pairs =>
      rcases sound with ⟨rfl, -⟩ | ⟨index, quests, rfl, kept⟩
      · exact ⟨fun _ _ => nofun, fun _ _ _ _ => nofun⟩
      · obtain ⟨after, indexAfter, arr, ran, -, isAfter, once, changes⟩ :=
          kept.countEvent obj event pairs
        refine ⟨fun qid quest isQuest isFinish => ?_, ?_⟩
        · have notPlaced : placeOf cfgs quests qid ≠ some event.ttype := by
            intro isPlace
            obtain ⟨other, isOther, isOpen, -⟩ := placeOf_eq_some.mp isPlace
            cases isQuest.symm.trans isOther
            exact absurd (isFinish.symm.trans isOpen) nofun
          simp only [step, ran]
          change after qid = some quest
          rw [isAfter, if_neg notPlaced]
          exact isQuest
        · rintro _ _ _ ⟨⟩ -
          refine ⟨_, arr, ran, once, fun qid => ?_,
            fun qid old new isOld isNew isOpen isFinish => ?_⟩
          · rw [changes]
            constructor
            · rintro ⟨isPlace, quest, isQuest, differ⟩
              refine ⟨quest, _, isQuest, ?_, differ⟩
              change after qid = _
              rw [isAfter, if_pos isPlace, isQuest]
              rfl
            · rintro ⟨old, new, isOld, isNew, differ⟩
              have isNew : after qid = some new := isNew
              have isOld : quests qid = some old := isOld
              rw [isAfter] at isNew
              split at isNew
              next isPlace =>
                rw [isOld] at isNew
                cases isNew
                exact ⟨isPlace, old, isOld, differ⟩
              next =>
                cases isOld.symm.trans isNew
                exact absurd rfl differ
          · have isNew : after qid = some new := isNew
            have isOld : quests qid = some old := isOld
            rw [isAfter] at isNew
            split at isNew
            next isPlace =>
              rw [isOld] at isNew
              cases isNew
              obtain ⟨sum, -, isSum⟩ := kept.sums (cfgs.target qid).ttype
              have below := (kept.right qid old isOld sum isSum).unfinished isOpen
              have atTarget := count_of_finish obj isOpen isFinish
              exact (changes qid).mpr ⟨isPlace, old, isOld, by omega⟩
            next =>
              cases isOld.symm.trans isNew
              exact absurd (isOpen.symm.trans isFinish) nofun

theorem Sound.count (sound : Sound handler cfgs history qobj) (obj : Obj) (event : Typed)
    (pairs : Pairs QuestId) (nonneg : 0 ≤ event.num)
    (fits : Fits handler cfgs qobj (.count obj event pairs)) :
    Sound handler cfgs (history ++ [.count obj event pairs])
      (step handler cfgs qobj (.count obj event pairs)) := by
  have tallies : ∀ ttype, tallied ttype (history ++ [.count obj event pairs]) =
      if event.ttype = ttype then (tallied ttype history).map (· + event.num)
        else tallied ttype history := fun ttype => tallied_concat ttype history _
  rcases sound with ⟨rfl, noSums⟩ | ⟨index, quests, rfl, kept⟩
  · refine Or.inl ⟨rfl, fun ttype => ?_⟩
    rw [tallies, noSums]
    split <;> rfl
  · obtain ⟨after, indexAfter, arr, ran, places, isAfter, -⟩ := kept.countEvent obj event pairs
    simp only [step, ran]
    refine Or.inr ⟨indexAfter, after, rfl, places, fun ttype => ?_, fun qid member => ?_, ?_⟩
    · obtain ⟨sum, sumNonneg, isSum⟩ := kept.sums ttype
      rw [tallies, isSum]
      split
      · exact ⟨sum + event.num, by omega, rfl⟩
      · exact ⟨sum, sumNonneg, rfl⟩
    · obtain ⟨quest, isQuest⟩ := kept.isCreated qid member
      rw [isAfter, isQuest]
      split
      · exact ⟨_, rfl⟩
      · exact ⟨quest, rfl⟩
    · intro qid quest isQuest sum isSum
      obtain ⟨oldSum, sumNonneg, isOldSum⟩ := kept.sums (cfgs.target qid).ttype
      rw [tallies, isOldSum] at isSum
      rw [isAfter] at isQuest
      split at isQuest
      next isPlace =>
        obtain ⟨old, isOld, isOpen, isType⟩ := placeOf_eq_some.mp isPlace
        rw [isOld] at isQuest
        cases isQuest
        rw [if_pos isType.symm] at isSum
        cases isSum
        refine (kept.right qid old isOld oldSum isOldSum).count isOpen obj sumNonneg nonneg ?_
        intro noHandler
        exact fits qid old isOld isOpen isType (isType ▸ noHandler)
      next notPlaced =>
        have right := kept.right qid quest isQuest oldSum isOldSum
        split at isSum
        next isType =>
          cases isSum
          refine right.more ?_ nonneg
          cases isStatus : quest.status with
          | finish => rfl
          | unfinish =>
              exact absurd (placeOf_eq_some.mpr ⟨quest, isQuest, isStatus, isType.symm⟩) notPlaced
        next =>
          cases isSum
          exact right

/-- A sum that does not fit is not the number of its quest. -/
theorem Sound.fits (sound : Sound handler cfgs history qobj) {call : Event Obj QuestId}
    (amount : call.Amount)
    (exact : Exact handler cfgs (history ++ [call]) (step handler cfgs qobj call)) :
    Fits handler cfgs qobj call := by
  cases call with
  | initQuests obj pairs => trivial
  | count obj event pairs =>
      intro qid quest isQuest isOpen isType noHandler
      rcases sound with ⟨rfl, -⟩ | ⟨index, quests, rfl, kept⟩
      · cases isQuest
      · have isQuest : quests qid = some quest := isQuest
        obtain ⟨after, indexAfter, arr, ran, -, isAfter, -⟩ := kept.countEvent obj event pairs
        obtain ⟨sum, sumNonneg, isSum⟩ := kept.sums (cfgs.target qid).ttype
        have right := kept.right qid quest isQuest sum isSum
        rw [← isType] at noHandler
        have isMin := right.sums noHandler
        have below := right.unfinished isOpen
        have small := right.small noHandler isOpen
        obtain ⟨nonneg, fitsAmount⟩ := amount
        by_contra tooBig
        have wrapped : counted handler obj quest (cfgs.target qid) event.num < 0 :=
          counted_of_not_fits obj noHandler (not_lt.mp tooBig) (by omega)
        have isNew : (step handler cfgs ⟨some index, some quests⟩
            (.count obj event pairs)).quest qid =
              some (Quests.count handler obj quest (cfgs.target qid) event.num) := by
          simp only [step, ran]
          change after qid = _
          rw [isAfter, if_pos (placeOf_eq_some.mpr ⟨quest, isQuest, isOpen, isType⟩), isQuest]
          rfl
        obtain ⟨newSum, isNewSum, isNum, -⟩ := exact.sums qid _ isNew noHandler
        rw [tallied_concat, isSum] at isNewSum
        simp only [tally, isType, if_true, Option.map_some, Option.some.injEq] at isNewSum
        rw [count_num] at isNum
        omega

theorem run_concat (handler : Int → Option (Obj → Typed → Quest QuestId → Option Int))
    (cfgs : Configs QuestId) (history : List (Event Obj QuestId)) (call : Event Obj QuestId) :
    run handler cfgs (history ++ [call]) = step handler cfgs (run handler cfgs history) call :=
  List.foldl_concat ..

theorem Sound.step (sound : Sound handler cfgs history qobj) {call : Event Obj QuestId}
    (amount : call.Amount) (fits : Fits handler cfgs qobj call) :
    Sound handler cfgs (history ++ [call]) (step handler cfgs qobj call) := by
  cases call with
  | initQuests obj pairs => exact (sound.initQuests obj pairs).1
  | count obj event pairs => exact sound.count obj event pairs amount.1 fits

/-- The quests are exact after every call, and every call is exact, exactly when all sums
fit. -/
theorem exact_iff_fits (handler : Int → Option (Obj → Typed → Quest QuestId → Option Int))
    (cfgs : Configs QuestId) (history : List (Event Obj QuestId))
    (amounts : ∀ call ∈ history, call.Amount) :
    (∀ before after, history = before ++ after →
      Exact handler cfgs before (run handler cfgs before)) ∧
      (∀ before call after, history = before ++ call :: after →
        ExactCall handler cfgs (run handler cfgs before) call) ↔
      ∀ before call after, history = before ++ call :: after →
        Fits handler cfgs (run handler cfgs before) call := by
  have start : Sound handler cfgs ([] : List (Event Obj QuestId)) (run handler cfgs []) :=
    Or.inl ⟨rfl, fun _ => rfl⟩
  have next : ∀ before (call : Event Obj QuestId),
      Sound handler cfgs before (run handler cfgs before) →
      call.Amount → Fits handler cfgs (run handler cfgs before) call →
        Sound handler cfgs (before ++ [call]) (run handler cfgs (before ++ [call])) := by
    intro before call sound amount fits
    rw [run_concat]
    exact sound.step amount fits
  have needed : ∀ before (call : Event Obj QuestId),
      Sound handler cfgs before (run handler cfgs before) →
      call.Amount → Exact handler cfgs (before ++ [call]) (run handler cfgs (before ++ [call])) →
        Fits handler cfgs (run handler cfgs before) call := by
    intro before call sound amount exact
    rw [run_concat] at exact
    exact sound.fits amount exact
  have exactIff := forall_good_iff _ start (fun before sound => sound.exact) next needed amounts
  constructor
  · rintro ⟨exact, -⟩
    exact exactIff.mp exact
  · intro fits
    refine ⟨exactIff.mpr fits, ?_⟩
    rintro before call after rfl
    have sound : Sound handler cfgs before (run handler cfgs before) := by
      refine invariant_of_condition _ start next
        (fun old member => amounts old (List.mem_append_left _ member)) ?_
      rintro first old later rfl
      exact fits first old (later ++ call :: after) (by simp)
    exact sound.exactCall call

end Runs

section Sample

/-- Two quests that add up the amounts of the type 3 to 10 and to 5, and one for the type 4. -/
def threeConfigs : Configs (Fin 3) where
  ids := {0, 1, 2}
  target
    | 0 => ⟨[3, 10], nofun⟩
    | 1 => ⟨[3, 5], nofun⟩
    | 2 => ⟨[4, 1], nofun⟩

def threePairs : Pairs (Fin 3) where
  order ids := (List.finRange 3).filter (· ∈ ids)
  nodup ids := (List.nodup_finRange 3).filter _
  mem_iff ids qid := by simp

/-- The second count finishes the second quest, and the last one the third. -/
def threeHistory : List (Event Unit (Fin 3)) :=
  [.initQuests () threePairs, .count () ⟨[3, 4], nofun⟩ threePairs,
    .count () ⟨[3, 3], nofun⟩ threePairs, .count () ⟨[4, 2], nofun⟩ threePairs]

theorem small_threeHistory : ∀ before ∈ threeHistory.inits, ∀ qid : Fin 3,
    ∀ quest ∈ (run (fun _ => none) threeConfigs before).quest qid, quest.num ≤ 10 := by
  decide +kernel

theorem exact_iff_fits_three :
    (∀ before after, threeHistory = before ++ after →
        Exact (fun _ => none) threeConfigs before (run (fun _ => none) threeConfigs before)) ∧
      ∀ before call after, threeHistory = before ++ call :: after →
        ExactCall (fun _ => none) threeConfigs (run (fun _ => none) threeConfigs before) call := by
  refine (exact_iff_fits (fun _ => none) threeConfigs threeHistory ?_).mpr ?_
  · simp only [threeHistory, List.forall_mem_cons]
    exact ⟨trivial, ⟨by decide, by decide⟩, ⟨by decide, by decide⟩, ⟨by decide, by decide⟩,
      by simp⟩
  · intro before call after split
    have inits : before ∈ threeHistory.inits := (List.mem_inits ..).mpr ⟨call :: after, split.symm⟩
    have member : call ∈ threeHistory := split ▸ List.mem_append_right before List.mem_cons_self
    simp only [threeHistory, List.mem_cons, List.not_mem_nil, or_false] at member
    rcases member with rfl | rfl | rfl | rfl
    · exact trivial
    all_goals
      intro qid quest isQuest _ _ _
      have atMost := small_threeHistory before inits qid quest isQuest
      exact lt_of_le_of_lt (add_le_add atMost (by decide : _ ≤ (4 : Int))) (by norm_num)

/-- One quest that adds up the amounts of the type 3 to 10. -/
def sampleConfigs : Configs Unit := ⟨{()}, fun _ => ⟨[3, 10], nofun⟩⟩

def samplePairs : Pairs Unit where
  order ids := if () ∈ ids then [()] else []
  nodup ids := by split <;> simp
  mem_iff ids qid := by by_cases member : () ∈ ids <;> simp [member]

/-- A sum behind the integers of 64 bits makes the number of a quest negative. -/
theorem not_exact_wrapped : ¬ Exact (fun _ => none) sampleConfigs
    [.initQuests () samplePairs, .count () ⟨[3, 4], nofun⟩ samplePairs,
      .count () ⟨[3, 2 ^ 63 - 1], nofun⟩ samplePairs]
    (run (fun _ => none) sampleConfigs
      [.initQuests () samplePairs, .count () ⟨[3, 4], nofun⟩ samplePairs,
        .count () ⟨[3, 2 ^ 63 - 1], nofun⟩ samplePairs]) := by
  intro exact
  obtain ⟨sum, isSum, isNum, -⟩ := exact.sums () ⟨(), 3 - 2 ^ 63, .unfinish⟩ (by decide) rfl
  have total : sum = 4 + (2 ^ 63 - 1) := by
    cases isSum
    decide
  subst total
  exact absurd isNum (by decide)

end Sample

end Quests

end LuaServer
