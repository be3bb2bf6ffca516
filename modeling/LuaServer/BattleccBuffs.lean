import LuaServer.BattleBuffs
import LuaServer.MachineIntegers
import LuaServer.OrderedMultisets
import Mathlib.Algebra.Order.Round
import Mathlib.Data.Rat.Floor

/-!
# Buffs of an actor

A buff changes attributes of an actor, or leaves a handler with it, until its last round
has ended.  Its record alone says then what is undone: of several changes of one attribute
it has the last one only, and its event is cut to 16 bits.  Ids are integers of 16 bits
that start again at 0.
-/

namespace LuaServer

namespace Battlecc

open MachineIntegers OrderedMultisets RunConditions

/-- `struct Buff`. -/
structure Buff where
  id : Int
  tid : Int
  event : Int
  endtm : Int
  attrs : Int → Option ℚ

/-- The fields of `struct Actor` that have to do with buffs.  An attribute that is absent
is 0, and a table of `eventfunc_` that is absent is empty. -/
structure Actor (Handler : Type*) where
  attrs : Int → ℚ
  buffs : List Buff
  idx : Int
  roundend : Int → Option Handler
  eventfunc : Int → Int → Option Handler

section Functions

variable {Handler : Type*} (actor : Actor Handler)

/-- The conversion of a `float` to an `int`. -/
def truncate (value : ℚ) : Int := if 0 ≤ value then ⌊value⌋ else ⌈value⌉

/-- Outside of these numbers the conversion is undefined. -/
def FitsInt (value : ℚ) : Prop := -2147483649 < value ∧ value < 2147483648

instance (value : ℚ) : Decidable (FitsInt value) :=
  inferInstanceAs (Decidable (_ ∧ _))

/-- The `uint16_t` that is the id of the next buff. -/
def nextId : Int := toUnsigned 16 (actor.idx + 1)

/-- `Skill::initbuff`, for a buff that is all 0. -/
def initbuff (tid : Int) : Buff × Actor Handler :=
  (⟨nextId actor, tid, 0, 1, fun _ => none⟩, { actor with idx := nextId actor })

/-- `targ_->buffs_.insert(buff)`. -/
def insert (buff : Buff) : Actor Handler :=
  { actor with buffs := insertAfter Buff.endtm buff actor.buffs }

/-- The body of the loop of `Skill::buffattr`. -/
def addAttr (state : (Int → Option ℚ) × (Int → ℚ)) (pair : ℚ × ℚ) :
    (Int → Option ℚ) × (Int → ℚ) :=
  let k := truncate pair.1
  (Function.update state.1 k (some pair.2), Function.update state.2 k (state.2 k + pair.2))

/-- `Skill::buffattr`, for an array of pairs.  It reads behind the end of an empty array,
its index does not reach the end of an array of `2 ^ 31` numbers, and its keys become
integers. -/
def buffattr (tid : Int) (arr : List (ℚ × ℚ)) : Option (Actor Handler) :=
  let (buff, actor) := initbuff actor tid
  if arr = [] ∨ 2 ^ 30 ≤ arr.length ∨ ¬ ∀ pair ∈ arr, FitsInt pair.1 then none
  else
    let state := arr.foldl addAttr (buff.attrs, actor.attrs)
    some (insert { actor with attrs := state.2 } { buff with attrs := state.1 })

/-- `Skill::buff_roundend`. -/
def buffRoundend (tid : Int) (func : Handler) : Actor Handler :=
  let (buff, actor) := initbuff actor tid
  insert { actor with roundend := Function.update actor.roundend buff.id (some func) } buff

/-- `Skill::buffevent`. -/
def buffevent (tid event : Int) (func : Handler) : Actor Handler :=
  let (buff, actor) := initbuff actor tid
  let eventfunc := Function.update actor.eventfunc event
    (Function.update (actor.eventfunc event) buff.id (some func))
  insert { actor with eventfunc := eventfunc } { buff with event := toInt16 event }

/-- `Skill::removebuff`. -/
def removebuff (buff : Buff) : Actor Handler where
  attrs := fun k => actor.attrs k - (buff.attrs k).getD 0
  buffs := actor.buffs
  idx := actor.idx
  roundend := Function.update actor.roundend buff.id none
  eventfunc :=
    if buff.event > 0 then Function.update actor.eventfunc buff.event
      (Function.update (actor.eventfunc buff.event) buff.id none)
    else actor.eventfunc

/-- The loop of `Skill::roundend` that removes buffs, from an iterator on. -/
def expire (round : Int) : (rest : List Buff) → Actor Handler → Actor Handler
  | [], actor => { actor with buffs := [] }
  | buff :: rest, actor =>
      if round ≥ buff.endtm then expire round rest (removebuff actor buff)
      else { actor with buffs := buff :: rest }

/-- `Skill::roundend`, for an actor of the order.  What its handlers call comes before. -/
def roundend (round : Int) : Actor Handler := expire round actor.buffs actor

end Functions

/-- What a buff of an actor is made for. -/
abbrev Made (Handler : Type*) := Creation (List (ℚ × ℚ)) Int Handler

/-- The calls that have an actor as their target. -/
inductive Call (Handler : Type*) where
  | make (tid : Int) (made : Made Handler)
  | roundend (round : Int)

section Runs

variable {Handler : Type*}

def make (actor : Actor Handler) (tid : Int) : Made Handler → Option (Actor Handler)
  | .buffattr arr => buffattr actor tid arr
  | .buffRoundend func => some (buffRoundend actor tid func)
  | .buffevent event func => some (buffevent actor tid event func)

/-- An actor with what the last buff under each id was made for. -/
structure Traced (Handler : Type*) where
  actor : Actor Handler
  made : Int → Option (Made Handler)

/-- A call, which is undefined where it reads behind an array. -/
def step (traced : Traced Handler) : Call Handler → Option (Traced Handler)
  | .make tid made => (make traced.actor tid made).map fun actor =>
      ⟨actor, Function.update traced.made (nextId traced.actor) (some made)⟩
  | .roundend round => some ⟨roundend traced.actor round, traced.made⟩

/-- An actor without buffs. -/
def initial (attrs : Int → ℚ) (idx : Int) : Traced Handler :=
  ⟨⟨attrs, [], idx, fun _ => none, fun _ _ => none⟩, fun _ => none⟩

def run (attrs : Int → ℚ) (idx : Int) (history : List (Call Handler)) : Option (Traced Handler) :=
  history.foldlM step (initial attrs idx)

/-- What the pairs of an array add to an attribute. -/
def added (arr : List (ℚ × ℚ)) (k : Int) : ℚ :=
  ((arr.filter fun pair => truncate pair.1 = k).map Prod.snd).sum

/-- What a buff has added to an attribute. -/
def Traced.addedBy (traced : Traced Handler) (k : Int) (buff : Buff) : ℚ :=
  match traced.made buff.id with
  | some (.buffattr arr) => added arr k
  | _ => 0

/-- What is asked of an actor whose attributes were `attrs` at first. -/
structure Exact (attrs : Int → ℚ) (traced : Traced Handler) : Prop where
  ids : (traced.actor.buffs.map Buff.id).Nodup
  attrs : ∀ k, traced.actor.attrs k =
    attrs k + (traced.actor.buffs.map (traced.addedBy k)).sum
  roundend : ∀ id func, traced.actor.roundend id = some func ↔
    (∃ buff ∈ traced.actor.buffs, buff.id = id) ∧ traced.made id = some (.buffRoundend func)
  eventfunc : ∀ event id func, traced.actor.eventfunc event id = some func ↔
    (∃ buff ∈ traced.actor.buffs, buff.id = id) ∧ traced.made id = some (.buffevent event func)

/-- An array that is read within its bounds, and whose keys fit an integer. -/
def Readable : Made Handler → Prop
  | .buffattr arr => arr ≠ [] ∧ arr.length < 2 ^ 30 ∧ ∀ pair ∈ arr, FitsInt pair.1
  | _ => True

/-- What is asked of the buffs when they expire: what they have added more than once is
nothing in sum, and their events are positive integers of 16 bits. -/
structure Undone (traced : Traced Handler) : Prop where
  attrs : ∀ k, (traced.actor.buffs.map fun buff =>
    traced.addedBy k buff - (buff.attrs k).getD 0).sum = 0
  event : ∀ buff ∈ traced.actor.buffs, ∀ event func,
    traced.made buff.id = some (.buffevent event func) → 0 < event ∧ event < 32768

/-- The condition on a call. -/
def Keeps (traced : Traced Handler) : Call Handler → Prop
  | .make _ made => Readable made ∧ ∀ buff ∈ traced.actor.buffs, buff.id ≠ nextId traced.actor
  | .roundend round => 1 ≤ round → Undone traced

end Runs

section Calls

variable {Handler : Type*} {actor after : Actor Handler} {made : Made Handler} {tid k : Int}

/-- What `buff.event_` becomes. -/
def eventOf : Made Handler → Int
  | .buffevent event _ => toInt16 event
  | _ => 0

/-- What a buff adds to an attribute. -/
def amountOf (made : Made Handler) (k : Int) : ℚ :=
  match made with
  | .buffattr arr => added arr k
  | _ => 0

theorem added_cons (pair : ℚ × ℚ) (arr : List (ℚ × ℚ)) :
    added (pair :: arr) k = (if truncate pair.1 = k then pair.2 else 0) + added arr k := by
  rw [added, List.filter_cons]
  split
  next same =>
    rw [if_pos (of_decide_eq_true same), List.map_cons, List.sum_cons]
    rfl
  next other =>
    rw [if_neg fun same => other (decide_eq_true same), zero_add]
    rfl

/-- The loop of `Skill::buffattr` adds up all values of an attribute. -/
theorem foldl_addAttr (arr : List (ℚ × ℚ)) (state : (Int → Option ℚ) × (Int → ℚ)) :
    (arr.foldl addAttr state).2 k = state.2 k + added arr k := by
  induction arr generalizing state with
  | nil => exact (add_zero _).symm
  | cons pair arr ih =>
      rw [List.foldl_cons, ih, added_cons, ← add_assoc]
      congr 1
      rw [addAttr]
      by_cases same : truncate pair.1 = k
      · rw [if_pos same, ← same]
        exact Function.update_self ..
      · rw [if_neg same, add_zero]
        exact Function.update_of_ne (Ne.symm same) ..

/-- What a call that puts in a buff does. -/
structure MakesBuff (actor : Actor Handler) (made : Made Handler) (after : Actor Handler) :
    Prop where
  buffs : ∃ buff : Buff, buff.id = nextId actor ∧ buff.endtm = 1 ∧ buff.event = eventOf made ∧
    after.buffs.Perm (buff :: actor.buffs)
  attrs : ∀ k, after.attrs k = actor.attrs k + amountOf made k
  roundend : ∀ id func, after.roundend id = some func ↔
    (id = nextId actor ∧ made = .buffRoundend func) ∨
      (actor.roundend id = some func ∧ (id = nextId actor → ∀ other, made ≠ .buffRoundend other))
  eventfunc : ∀ event id func, after.eventfunc event id = some func ↔
    (id = nextId actor ∧ made = .buffevent event func) ∨
      (actor.eventfunc event id = some func ∧
        (id = nextId actor → ∀ other, made ≠ .buffevent event other))

theorem makesBuff (isMade : make actor tid made = some after) :
    Readable made ∧ MakesBuff actor made after := by
  cases made with
  | buffattr arr =>
      rw [make, buffattr] at isMade
      dsimp only at isMade
      split at isMade
      next => cases isMade
      next readable =>
        obtain rfl := Option.some_inj.mp isMade
        obtain ⟨notEmpty, short, fits⟩ : arr ≠ [] ∧ ¬ 2 ^ 30 ≤ arr.length ∧
            ∀ pair ∈ arr, FitsInt pair.1 := by
          simpa only [not_or, not_not] using readable
        refine ⟨⟨notEmpty, not_le.mp short, fits⟩, ⟨_, rfl, rfl, rfl, perm_insertAfter⟩,
          fun k => foldl_addAttr arr _, fun id func => ?_, fun event id func => ?_⟩
        · simp [insert, initbuff]
        · simp [insert, initbuff]
  | buffRoundend func =>
      obtain rfl := Option.some_inj.mp isMade
      refine ⟨trivial, ⟨_, rfl, rfl, rfl, perm_insertAfter⟩,
        fun k => (add_zero _).symm, fun id other => ?_, fun event id other => ?_⟩
      · by_cases same : id = nextId actor
        · simp [buffRoundend, insert, initbuff, same]
        · simp [buffRoundend, insert, initbuff, same]
      · simp [buffRoundend, insert, initbuff]
  | buffevent event func =>
      obtain rfl := Option.some_inj.mp isMade
      refine ⟨trivial, ⟨_, rfl, rfl, rfl, perm_insertAfter⟩,
        fun k => (add_zero _).symm, fun id handler => ?_, fun other id handler => ?_⟩
      · simp [buffevent, insert, initbuff]
      · by_cases sameEvent : other = event
        · by_cases same : id = nextId actor
          · simp [buffevent, insert, initbuff, same, sameEvent]
          · simp [buffevent, insert, initbuff, same, sameEvent]
        · simp [buffevent, insert, initbuff, sameEvent, Ne.symm sameEvent]

theorem make_of_readable (readable : Readable made) :
    ∃ after, make actor tid made = some after := by
  cases made with
  | buffattr arr =>
      obtain ⟨notEmpty, short, fits⟩ := readable
      have within : ¬ (arr = [] ∨ 2 ^ 30 ≤ arr.length ∨ ¬ ∀ pair ∈ arr, FitsInt pair.1) := by
        simpa only [not_or, not_not] using ⟨notEmpty, not_le.mpr short, fits⟩
      exact ⟨_, if_neg within⟩
  | buffRoundend func => exact ⟨_, rfl⟩
  | buffevent event func => exact ⟨_, rfl⟩

/-- What removing buffs undoes. -/
theorem foldl_removebuff (rest : List Buff) (actor : Actor Handler) :
    (∀ k, (rest.foldl removebuff actor).attrs k =
      actor.attrs k - (rest.map fun buff => (buff.attrs k).getD 0).sum) ∧
    (∀ id func, (rest.foldl removebuff actor).roundend id = some func ↔
      actor.roundend id = some func ∧ ∀ buff ∈ rest, buff.id ≠ id) ∧
    (∀ event id func, (rest.foldl removebuff actor).eventfunc event id = some func ↔
      actor.eventfunc event id = some func ∧
        ∀ buff ∈ rest, ¬ (buff.id = id ∧ buff.event = event ∧ 0 < event)) := by
  induction rest generalizing actor with
  | nil => simp
  | cons buff rest ih =>
      obtain ⟨attrs, roundend, eventfunc⟩ := ih (removebuff actor buff)
      refine ⟨fun k => ?_, fun id func => ?_, fun event id func => ?_⟩
      · rw [List.foldl_cons, attrs, List.map_cons, List.sum_cons, ← sub_sub]
        rfl
      · rw [List.foldl_cons, roundend, List.forall_mem_cons, ← and_assoc]
        refine and_congr_left fun _ => ?_
        by_cases same : id = buff.id
        · simp [removebuff, same]
        · simp [removebuff, same, Ne.symm same]
      · rw [List.foldl_cons, eventfunc, List.forall_mem_cons, ← and_assoc]
        refine and_congr_left fun _ => ?_
        by_cases isEvent : buff.event > 0
        · by_cases sameEvent : event = buff.event
          · by_cases same : id = buff.id
            · simp [removebuff, isEvent, same, sameEvent]
            · simp [removebuff, isEvent, same, sameEvent, Ne.symm same]
          · simp [removebuff, isEvent, sameEvent, Ne.symm sameEvent]
        · have notBoth : ¬ (buff.id = id ∧ buff.event = event ∧ 0 < event) :=
            fun holds => isEvent (holds.2.1 ▸ holds.2.2)
          simp [removebuff, isEvent, notBoth]

theorem expire_early {round : Int} (early : round < 1) {rest : List Buff}
    (endtm : ∀ buff ∈ rest, buff.endtm = 1) :
    expire round rest actor = { actor with buffs := rest } := by
  cases rest with
  | nil => rfl
  | cons buff rest =>
      have isLater : ¬ round ≥ buff.endtm := by
        rw [endtm buff List.mem_cons_self]
        omega
      rw [expire, if_neg isLater]

theorem expire_late {round : Int} (late : 1 ≤ round) {rest : List Buff}
    (endtm : ∀ buff ∈ rest, buff.endtm = 1) :
    expire round rest actor = { rest.foldl removebuff actor with buffs := [] } := by
  induction rest generalizing actor with
  | nil => rfl
  | cons buff rest ih =>
      have isOver : round ≥ buff.endtm := by
        rw [endtm buff List.mem_cons_self]
        omega
      rw [expire, if_pos isOver, List.foldl_cons]
      exact ih fun other member => endtm other (List.mem_cons_of_mem buff member)

end Calls

section Invariant

variable {Handler : Type*} {attrs : Int → ℚ} {traced after : Traced Handler} {tid : Int}
  {made : Made Handler}

/-- The actor is exact, and each buff is one that its call put in. -/
structure Sound (attrs : Int → ℚ) (traced : Traced Handler) : Prop where
  exact_ : Exact attrs traced
  record : ∀ buff ∈ traced.actor.buffs, buff.endtm = 1 ∧
    ∃ made, traced.made buff.id = some made ∧ buff.event = eventOf made

theorem sound_initial (idx : Int) : Sound attrs (initial attrs idx : Traced Handler) where
  exact_ := {
    ids := List.nodup_nil
    attrs := fun _ => (add_zero _).symm
    roundend := fun _ _ => iff_of_false nofun fun holds => nomatch holds.1.choose_spec.1
    eventfunc := fun _ _ _ => iff_of_false nofun fun holds => nomatch holds.1.choose_spec.1 }
  record := fun _ isBuff => nomatch isBuff

theorem step_make (done : step traced (.make tid made) = some after) :
    ∃ actor, make traced.actor tid made = some actor ∧
      after = ⟨actor, Function.update traced.made (nextId traced.actor) (some made)⟩ := by
  obtain ⟨actor, isActor, same⟩ := Option.map_eq_some_iff.mp done
  exact ⟨actor, isActor, same.symm⟩

/-- One table of handlers when a buff is made under an id that is not in use. -/
theorem handler_made {handlers : Int → Option Handler} {kind : Handler → Made Handler}
    {madeBefore : Int → Option (Made Handler)} {buffs : List Buff} {new id : Int} {func : Handler}
    (before : handlers id = some func ↔
      (∃ buff ∈ buffs, buff.id = id) ∧ madeBefore id = some (kind func))
    (fresh : ¬ ∃ buff ∈ buffs, buff.id = new) :
    (id = new ∧ made = kind func ∨
        handlers id = some func ∧ (id = new → ∀ other, made ≠ kind other)) ↔
      (id = new ∨ ∃ buff ∈ buffs, buff.id = id) ∧
        Function.update madeBefore new (some made) id = some (kind func) := by
  by_cases isHere : id = new
  · subst isHere
    have noHandler : ¬ handlers id = some func := fun isSet => fresh (before.mp isSet).1
    rw [Function.update_self, Option.some_inj]
    simp [noHandler]
  · rw [Function.update_of_ne isHere, before]
    simp [isHere]

theorem Sound.make (sound : Sound attrs traced)
    (fresh : ∀ buff ∈ traced.actor.buffs, buff.id ≠ nextId traced.actor)
    (done : step traced (.make tid made) = some after) : Sound attrs after := by
  obtain ⟨actor, isActor, rfl⟩ := step_make done
  obtain ⟨-, makes⟩ := makesBuff isActor
  obtain ⟨new, isNew, isEnd, isEvent, perm⟩ := makes.buffs
  have live (id : Int) : (∃ buff ∈ actor.buffs, buff.id = id) ↔
      id = nextId traced.actor ∨ ∃ buff ∈ traced.actor.buffs, buff.id = id := by
    constructor
    · rintro ⟨buff, member, rfl⟩
      obtain rfl | old := List.mem_cons.mp (perm.mem_iff.mp member)
      · exact Or.inl isNew
      · exact Or.inr ⟨buff, old, rfl⟩
    · rintro (rfl | ⟨buff, old, rfl⟩)
      · exact ⟨new, perm.mem_iff.mpr List.mem_cons_self, isNew⟩
      · exact ⟨buff, perm.mem_iff.mpr (List.mem_cons_of_mem new old), rfl⟩
  have notLive : ¬ ∃ buff ∈ traced.actor.buffs, buff.id = nextId traced.actor := by
    rintro ⟨buff, member, same⟩
    exact fresh buff member same
  refine ⟨⟨?_, fun k => ?_, fun id func => ?_, fun event id func => ?_⟩, fun buff member => ?_⟩
  · refine (perm.map Buff.id).nodup_iff.mpr
      (List.nodup_cons.mpr ⟨fun member => ?_, sound.exact_.ids⟩)
    obtain ⟨buff, isBuff, same⟩ := List.mem_map.mp member
    exact fresh buff isBuff (same.trans isNew)
  · have ofNew :
        Traced.addedBy ⟨actor, Function.update traced.made (nextId traced.actor) (some made)⟩
        k new = amountOf made k := by
      simp only [Traced.addedBy, isNew, Function.update_self]
      cases made <;> rfl
    have ofOld : traced.actor.buffs.map (Traced.addedBy
          ⟨actor, Function.update traced.made (nextId traced.actor) (some made)⟩ k) =
        traced.actor.buffs.map (traced.addedBy k) := by
      refine List.map_congr_left fun buff member => ?_
      simp only [Traced.addedBy, Function.update_of_ne (fresh buff member)]
    rw [(perm.map _).sum_eq, List.map_cons, List.sum_cons, ofNew, ofOld, makes.attrs,
      sound.exact_.attrs]
    ring
  · rw [makes.roundend, live]
    exact handler_made (sound.exact_.roundend id func) notLive
  · rw [makes.eventfunc, live]
    exact handler_made (sound.exact_.eventfunc event id func) notLive
  · obtain rfl | old := List.mem_cons.mp (perm.mem_iff.mp member)
    · refine ⟨isEnd, made, ?_, isEvent⟩
      rw [isNew]
      exact Function.update_self ..
    · obtain ⟨isOldEnd, oldMade, isOldMade, isOldEvent⟩ := sound.record buff old
      exact ⟨isOldEnd, oldMade, (Function.update_of_ne (fresh buff old) ..).trans isOldMade,
        isOldEvent⟩

/-- A call that leaves the actor exact has put its buff under a new id. -/
theorem keeps_of_make (done : step traced (.make tid made) = some after)
    (exact_ : Exact attrs after) : Keeps traced (.make tid made) := by
  obtain ⟨actor, isActor, rfl⟩ := step_make done
  obtain ⟨readable, makes⟩ := makesBuff isActor
  obtain ⟨new, isNew, -, -, perm⟩ := makes.buffs
  refine ⟨readable, fun buff member same => ?_⟩
  have nodup := (perm.map Buff.id).nodup_iff.mp exact_.ids
  rw [List.map_cons, List.nodup_cons, isNew] at nodup
  exact nodup.1 (List.mem_map.mpr ⟨buff, member, same⟩)

theorem step_early (sound : Sound attrs traced) {round : Int} (early : round < 1) :
    step traced (.roundend round) = some traced := by
  rw [step, roundend, expire_early early fun buff member => (sound.record buff member).1]

theorem step_late (sound : Sound attrs traced) {round : Int} (late : 1 ≤ round) :
    step traced (.roundend round) = some
      ⟨{ traced.actor.buffs.foldl removebuff traced.actor with buffs := [] }, traced.made⟩ := by
  rw [step, roundend, expire_late late fun buff member => (sound.record buff member).1]

theorem sum_sub (buffs : List Buff) (first second : Buff → ℚ) :
    (buffs.map fun buff => first buff - second buff).sum =
      (buffs.map first).sum - (buffs.map second).sum := by
  induction buffs with
  | nil => simp
  | cons buff buffs ih =>
      rw [List.map_cons, List.map_cons, List.map_cons, List.sum_cons, List.sum_cons,
        List.sum_cons, ih]
      ring

theorem Sound.roundend (sound : Sound attrs traced) {round : Int}
    (keeps : Keeps traced (.roundend round)) (done : step traced (.roundend round) = some after) :
    Sound attrs after := by
  by_cases late : 1 ≤ round
  · obtain rfl := Option.some_inj.mp ((step_late sound late).symm.trans done)
    obtain ⟨attrsUndone, eventUndone⟩ := keeps late
    obtain ⟨attrsAfter, roundendAfter, eventAfter⟩ :=
      foldl_removebuff traced.actor.buffs traced.actor
    refine ⟨⟨List.nodup_nil, fun k => ?_, fun id func => ?_, fun event id func => ?_⟩,
      fun _ isBuff => nomatch isBuff⟩
    · have nothingLeft := attrsUndone k
      rw [sum_sub, sub_eq_zero] at nothingLeft
      refine (attrsAfter k).trans ?_
      rw [sound.exact_.attrs, ← nothingLeft, add_sub_cancel_right]
      exact (add_zero _).symm
    · refine iff_of_false (fun isSet => ?_) fun holds => nomatch holds.1.choose_spec.1
      obtain ⟨wasSet, noBuff⟩ := (roundendAfter id func).mp isSet
      obtain ⟨⟨buff, member, same⟩, -⟩ := (sound.exact_.roundend id func).mp wasSet
      exact noBuff buff member same
    · refine iff_of_false (fun isSet => ?_) fun holds => nomatch holds.1.choose_spec.1
      obtain ⟨wasSet, noBuff⟩ := (eventAfter event id func).mp isSet
      obtain ⟨⟨buff, member, rfl⟩, isMade⟩ := (sound.exact_.eventfunc event id func).mp wasSet
      obtain ⟨positive, small⟩ := eventUndone buff member event func isMade
      obtain ⟨-, made, sameMade, isEvent⟩ := sound.record buff member
      obtain rfl := Option.some_inj.mp (isMade.symm.trans sameMade)
      refine noBuff buff member ⟨rfl, isEvent.trans ?_, positive⟩
      exact toInt16_of_range (by omega) small
  · obtain rfl := Option.some_inj.mp ((step_early sound (not_le.mp late)).symm.trans done)
    exact sound

/-- A call that leaves the actor exact has undone what is expired. -/
theorem keeps_of_roundend (sound : Sound attrs traced) {round : Int}
    (done : step traced (.roundend round) = some after) (exact_ : Exact attrs after) :
    Keeps traced (.roundend round) := by
  intro late
  obtain rfl := Option.some_inj.mp ((step_late sound late).symm.trans done)
  obtain ⟨attrsAfter, roundendAfter, eventAfter⟩ := foldl_removebuff traced.actor.buffs traced.actor
  refine ⟨fun k => ?_, fun buff member event func isMade => ?_⟩
  · have isInitial := (attrsAfter k).symm.trans (exact_.attrs k)
    rw [sound.exact_.attrs, List.map_nil, List.sum_nil, add_zero, add_sub_assoc] at isInitial
    rw [sum_sub]
    exact add_eq_left.mp isInitial
  · have wasSet := (sound.exact_.eventfunc event buff.id func).mpr ⟨⟨buff, member, rfl⟩, isMade⟩
    by_contra outside
    have still := (eventAfter event buff.id func).mpr ⟨wasSet, ?_⟩
    · obtain ⟨⟨other, isOther, -⟩, -⟩ := (exact_.eventfunc event buff.id func).mp still
      cases isOther
    · rintro other isOther ⟨sameId, sameEvent, positive⟩
      obtain ⟨-, made, sameMade, isEvent⟩ := sound.record other isOther
      rw [sameId, isMade] at sameMade
      obtain rfl := Option.some_inj.mp sameMade
      have range := toInt16_range event
      have isCut : toInt16 event = event := isEvent.symm.trans sameEvent
      omega

theorem run_concat {idx : Int} {history : List (Call Handler)} {call : Call Handler} :
    run attrs idx (history ++ [call]) = (run attrs idx history).bind fun traced =>
      step traced call := by
  rw [run, List.foldlM_append]
  refine congrArg _ (funext fun traced => ?_)
  exact bind_pure _

end Invariant

/-- In every run, all calls are defined and all states exact exactly when each new buff has
a new id and a readable array, and the buffs that expire are undone. -/
theorem exact_iff_undone {Handler : Type*} (attrs : Int → ℚ) (idx : Int)
    (history : List (Call Handler)) :
    (∀ before after, history = before ++ after →
      ∃ traced, run attrs idx before = some traced ∧ Exact attrs traced) ↔
    ∀ before call after, history = before ++ call :: after →
      ∀ traced, run attrs idx before = some traced → Keeps traced call := by
  refine @forall_good_iff _ history
    (fun before => ∃ traced, run attrs idx before = some traced ∧ Sound attrs traced)
    (fun before => ∃ traced, run attrs idx before = some traced ∧ Exact attrs traced)
    (fun _ => True)
    (fun before call => ∀ traced, run attrs idx before = some traced → Keeps traced call)
    ⟨_, rfl, sound_initial idx⟩
    (fun before ⟨traced, isRun, sound⟩ => ⟨traced, isRun, sound.exact_⟩) ?_ ?_ fun _ _ => trivial
  · rintro before call ⟨traced, isRun, sound⟩ - keeps
    have here := keeps traced isRun
    cases call with
    | make tid made =>
        obtain ⟨actor, isActor⟩ := @make_of_readable _ traced.actor made tid here.1
        have done : step traced (.make tid made) = some _ := congrArg (Option.map _) isActor
        refine ⟨_, ?_, sound.make here.2 done⟩
        rw [run_concat, isRun, Option.bind_some, done]
    | roundend round =>
        refine ⟨_, ?_, sound.roundend here rfl⟩
        rw [run_concat, isRun, Option.bind_some]
        rfl
  · rintro before call ⟨traced, isRun, sound⟩ - ⟨after, isAfter, exact_⟩ traced' isRun'
    obtain rfl := Option.some_inj.mp (isRun.symm.trans isRun')
    rw [run_concat, isRun, Option.bind_some] at isAfter
    cases call with
    | make tid made => exact keeps_of_make isAfter exact_
    | roundend round => exact keeps_of_roundend sound isAfter exact_

/-- Of two changes of one attribute only the last one is undone. -/
theorem not_exact_repeated : ¬ ∀ (attrs : Int → ℚ) (idx : Int) (history : List (Call Nat))
    before after, history = before ++ after →
      ∃ traced, run attrs idx before = some traced ∧ Exact attrs traced := by
  intro all
  obtain ⟨traced, isRun, exact_⟩ := all (fun _ => 0) 0
    [.make 10 (.buffattr [(20, 1), (20, 2)]), .roundend 1] _ [] (List.append_nil _).symm
  obtain rfl := Option.some_inj.mp isRun
  have same := exact_.attrs 20
  exact absurd same (by decide +kernel)

end Battlecc

end LuaServer
