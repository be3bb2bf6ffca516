import LuaServer.LuaValues
import LuaServer.RunConditions
import Mathlib.Algebra.BigOperators.Group.Finset.Basic
import Mathlib.Algebra.BigOperators.Group.Finset.Piecewise
import Mathlib.Tactic.Abel

/-!
# Buffs of a unit

A buff changes attributes of a unit, or leaves a handler with it, until it is removed
under its id.  Ids start again at 1 after 65534 buffs, whether or not a buff is still there
under the id.  The attributes and handlers are those of the buffs as long as no buff is
lost that way.
-/

namespace LuaServer

/-- What a buff is made for. -/
inductive Creation (Attrs Event Handler : Type*) where
  | buffattr (attrs : Attrs)
  | buffRoundend (func : Handler)
  | buffevent (event : Event) (func : Handler)

namespace Battle

open Lua RunConditions

/-- A buff.  The attributes are a table, which has a number under some keys. -/
structure Buff (Number : Type*) where
  id : Nat
  tid : Int
  endtm : Int
  event : Option Key
  attrs : Option (Key → Option Number)

/-- The fields of `unit` that have to do with buffs.  An attribute that is absent is 0, and
a table of `event` that is absent is empty. -/
structure BattleUnit (Number Handler : Type*) where
  attrs : Key → Number
  idx : Nat
  buffs : Nat → Option (Buff Number)
  roundend : Nat → Option Handler
  event : Key → Nat → Option Handler

section Functions

variable {Number Handler : Type*} [AddCommGroup Number] (unit : BattleUnit Number Handler)

/-- The id of the next buff. -/
def nextId : Nat := if unit.idx + 1 ≥ 0xffff then 1 else unit.idx + 1

/-- `M.initbuff`. -/
def initbuff (tid : Int) : Buff Number × BattleUnit Number Handler :=
  let id := nextId unit
  let buff : Buff Number := ⟨id, tid, 1, none, none⟩
  (buff, { unit with idx := id, buffs := Function.update unit.buffs id (some buff) })

/-- A field of a buff that is in the table is assigned. -/
def setbuff (buff : Buff Number) : BattleUnit Number Handler :=
  { unit with buffs := Function.update unit.buffs buff.id (some buff) }

/-- `M.buffattr`. -/
def buffattr (tid : Int) (attrs : Key → Option Number) : BattleUnit Number Handler :=
  let (buff, unit) := initbuff unit tid
  let unit := setbuff unit { buff with attrs := some attrs }
  { unit with attrs := fun k => match attrs k with
      | some v => unit.attrs k + v
      | none => unit.attrs k }

/-- `M.buff_roundend`. -/
def buffRoundend (tid : Int) (func : Handler) : BattleUnit Number Handler :=
  let (buff, unit) := initbuff unit tid
  { unit with roundend := Function.update unit.roundend buff.id (some func) }

/-- `M.buffevent`. -/
def buffevent (tid : Int) (event : Key) (func : Handler) : BattleUnit Number Handler :=
  let (buff, unit) := initbuff unit tid
  let unit := setbuff unit { buff with event := some event }
  { unit with event :=
      Function.update unit.event event (Function.update (unit.event event) buff.id (some func)) }

/-- `M.removebuff`. -/
def removebuff (buffid : Nat) : BattleUnit Number Handler :=
  let unit := { unit with roundend := Function.update unit.roundend buffid none }
  match unit.buffs buffid with
  | none => unit
  | some buff => { unit with
      buffs := Function.update unit.buffs buffid none
      attrs := fun k => match buff.attrs.bind fun attrs => attrs k with
        | some v => unit.attrs k - v
        | none => unit.attrs k
      event := match buff.event with
        | some event =>
            if event = .boolean false then unit.event
            else Function.update unit.event event
              (Function.update (unit.event event) buffid none)
        | none => unit.event }

end Functions

/-- What a buff of a unit is made for. -/
abbrev Made (Number Handler : Type*) := Creation (Key → Option Number) Key Handler

/-- The calls that have a unit as their target. -/
inductive Call (Number Handler : Type*) where
  | make (tid : Int) (made : Made Number Handler)
  | removebuff (buffid : Nat)

section Runs

variable {Number Handler : Type*} [AddCommGroup Number]

def make (unit : BattleUnit Number Handler) (tid : Int) :
    Made Number Handler → BattleUnit Number Handler
  | .buffattr attrs => buffattr unit tid attrs
  | .buffRoundend func => buffRoundend unit tid func
  | .buffevent event func => buffevent unit tid event func

def step (unit : BattleUnit Number Handler) : Call Number Handler → BattleUnit Number Handler
  | .make tid made => make unit tid made
  | .removebuff buffid => removebuff unit buffid

/-- A unit with what the last buff under each id was made for. -/
structure Traced (Number Handler : Type*) where
  unit : BattleUnit Number Handler
  made : Nat → Option (Made Number Handler)

def traceStep (traced : Traced Number Handler) (call : Call Number Handler) :
    Traced Number Handler where
  unit := step traced.unit call
  made := match call with
    | .make _ made => Function.update traced.made (nextId traced.unit) (some made)
    | .removebuff _ => traced.made

/-- A unit as `init` makes it. -/
def initial (attrs : Key → Number) : Traced Number Handler :=
  ⟨⟨attrs, 0, fun _ => none, fun _ => none, fun _ _ => none⟩, fun _ => none⟩

def run (attrs : Key → Number) (history : List (Call Number Handler)) : Traced Number Handler :=
  history.foldl traceStep (initial attrs)

/-- What a buff adds to an attribute. -/
def Buff.amount (buff : Buff Number) (k : Key) : Number :=
  (buff.attrs.bind fun attrs => attrs k).getD 0

/-- What the buff under an id adds to an attribute, if there is one. -/
def amountAt (buffs : Nat → Option (Buff Number)) (k : Key) (id : Nat) : Number :=
  ((buffs id).map fun buff => buff.amount k).getD 0

/-- What all buffs add to an attribute. -/
def total (buffs : Nat → Option (Buff Number)) (k : Key) : Number :=
  (Finset.range 0xffff).sum (amountAt buffs k)

/-- What is asked of a unit whose attributes were `attrs` at first. -/
structure Exact (attrs : Key → Number) (traced : Traced Number Handler) : Prop where
  ids : ∀ id, (traced.unit.buffs id).isSome → id < 0xffff
  attrs : ∀ k, traced.unit.attrs k = attrs k + total traced.unit.buffs k
  roundend : ∀ id func, traced.unit.roundend id = some func ↔
    (traced.unit.buffs id).isSome ∧ traced.made id = some (.buffRoundend func)
  event : ∀ event id func, traced.unit.event event id = some func ↔
    (traced.unit.buffs id).isSome ∧ traced.made id = some (.buffevent event func)

/-- A buff under the next id has nothing to lose: it changes no attribute, and its handler
is replaced by one in the same place. -/
structure Replaceable (unit : BattleUnit Number Handler) (made : Made Number Handler) : Prop where
  attrs : ∀ buff, unit.buffs (nextId unit) = some buff → ∀ k, buff.amount k = 0
  roundend : (unit.roundend (nextId unit)).isSome → ∃ func, made = .buffRoundend func
  event : ∀ event, (unit.event event (nextId unit)).isSome → ∃ func, made = .buffevent event func

/-- The condition on a call.  A handler of the event `false` is not found when its buff is
removed. -/
def Keeps (unit : BattleUnit Number Handler) : Call Number Handler → Prop
  | .make _ made => Replaceable unit made
  | .removebuff buffid =>
      ∀ buff, unit.buffs buffid = some buff → buff.event ≠ some (.boolean false)

end Runs

section Calls

variable {Number Handler : Type*} [AddCommGroup Number] {unit : BattleUnit Number Handler}
  {made : Made Number Handler} {tid : Int} {k : Key}

/-- What `buff.event` becomes. -/
def eventOf : Made Number Handler → Option Key
  | .buffevent event _ => some event
  | _ => none

/-- What `buff.attrs` becomes. -/
def attrsOf : Made Number Handler → Option (Key → Option Number)
  | .buffattr attrs => some attrs
  | _ => none

/-- The buff that a call puts in. -/
def newBuff (unit : BattleUnit Number Handler) (tid : Int) (made : Made Number Handler) :
    Buff Number :=
  ⟨nextId unit, tid, 1, eventOf made, attrsOf made⟩

theorem make_buffs : (make unit tid made).buffs =
    Function.update unit.buffs (nextId unit) (some (newBuff unit tid made)) := by
  cases made with
  | buffattr attrs => exact Function.update_idem ..
  | buffRoundend func => rfl
  | buffevent event func => exact Function.update_idem ..

theorem amountAt_make {id : Nat} : amountAt (make unit tid made).buffs k id =
    if id = nextId unit then (newBuff unit tid made).amount k else amountAt unit.buffs k id := by
  rw [make_buffs, amountAt]
  by_cases isNew : id = nextId unit
  · rw [if_pos isNew, isNew, Function.update_self]
    rfl
  · rw [if_neg isNew, Function.update_of_ne isNew, amountAt]

theorem make_idx : (make unit tid made).idx = nextId unit := by
  cases made <;> rfl

theorem make_attrs :
    (make unit tid made).attrs k = unit.attrs k + (newBuff unit tid made).amount k := by
  cases made with
  | buffattr attrs =>
      change (match attrs k with | some v => unit.attrs k + v | none => unit.attrs k) =
        unit.attrs k + (attrs k).getD 0
      cases attrs k with
      | none => exact (add_zero _).symm
      | some v => rfl
  | buffRoundend func => exact (add_zero _).symm
  | buffevent event func => exact (add_zero _).symm

omit [AddCommGroup Number] in
theorem nextId_lt : nextId unit < 0xffff := by
  unfold nextId
  split <;> omega

theorem make_roundend_of_ne {id : Nat} (isOther : id ≠ nextId unit) :
    (make unit tid made).roundend id = unit.roundend id := by
  cases made with
  | buffattr attrs => rfl
  | buffRoundend func => exact Function.update_of_ne isOther ..
  | buffevent event func => rfl

theorem make_event_of_ne {event : Key} {id : Nat} (isOther : id ≠ nextId unit) :
    (make unit tid made).event event id = unit.event event id := by
  cases made with
  | buffattr attrs => rfl
  | buffRoundend func => rfl
  | buffevent other func =>
      change Function.update unit.event other _ event id = _
      by_cases same : event = other
      · rw [same, Function.update_self]
        exact Function.update_of_ne isOther ..
      · rw [Function.update_of_ne same]

theorem make_roundend_self {func : Handler} :
    (make unit tid made).roundend (nextId unit) = some func ↔ made = .buffRoundend func ∨
      (unit.roundend (nextId unit) = some func ∧ ∀ other, made ≠ .buffRoundend other) := by
  cases made with
  | buffattr attrs => simp [make, buffattr, initbuff, setbuff]
  | buffRoundend other => simp [make, buffRoundend, initbuff]
  | buffevent event other => simp [make, buffevent, initbuff, setbuff]

theorem make_event_self {event : Key} {func : Handler} :
    (make unit tid made).event event (nextId unit) = some func ↔ made = .buffevent event func ∨
      (unit.event event (nextId unit) = some func ∧ ∀ other, made ≠ .buffevent event other) := by
  cases made with
  | buffattr attrs => simp [make, buffattr, initbuff, setbuff]
  | buffRoundend other => simp [make, buffRoundend, initbuff]
  | buffevent other func =>
      by_cases same : event = other
      · subst same
        simp [make, buffevent, initbuff, setbuff]
      · simp [make, buffevent, initbuff, setbuff, same, Ne.symm same]

theorem total_update {buffs : Nat → Option (Buff Number)} {id : Nat} (inRange : id < 0xffff)
    (buff : Option (Buff Number)) : total (Function.update buffs id buff) k =
      total buffs k - amountAt buffs k id + (buff.map fun buff => buff.amount k).getD 0 := by
  have member : id ∈ Finset.range 0xffff := Finset.mem_range.mpr inRange
  have moved : amountAt (Function.update buffs id buff) k =
      Function.update (amountAt buffs k) id ((buff.map fun buff => buff.amount k).getD 0) := by
    funext other
    by_cases same : other = id
    · rw [amountAt, same, Function.update_self, Function.update_self]
    · rw [amountAt, Function.update_of_ne same, Function.update_of_ne same, amountAt]
  rw [total, moved, Finset.sum_update_of_mem member, total, ← Finset.add_sum_erase _ _ member,
    Finset.sdiff_singleton_eq_erase]
  abel

theorem removebuff_of_none {buffid : Nat} (isNone : unit.buffs buffid = none) :
    removebuff unit buffid =
      { unit with roundend := Function.update unit.roundend buffid none } := by
  rw [removebuff]
  simp only [isNone]

section Removed

variable {buffid : Nat} {buff : Buff Number}

theorem removebuff_buffs (isBuff : unit.buffs buffid = some buff) :
    (removebuff unit buffid).buffs = Function.update unit.buffs buffid none := by
  rw [removebuff]
  simp only [isBuff]

theorem removebuff_roundend :
    (removebuff unit buffid).roundend = Function.update unit.roundend buffid none := by
  rw [removebuff]
  cases unit.buffs buffid <;> rfl

theorem removebuff_attrs (isBuff : unit.buffs buffid = some buff) :
    (removebuff unit buffid).attrs k = unit.attrs k - buff.amount k := by
  rw [removebuff, Buff.amount]
  simp only [isBuff]
  cases buff.attrs.bind fun attrs => attrs k with
  | none => exact (sub_zero _).symm
  | some v => rfl

/-- Only a handler of the buff's own event is taken out, unless this event is `false`. -/
theorem removebuff_event (isBuff : unit.buffs buffid = some buff) {event : Key} {id : Nat} :
    (removebuff unit buffid).event event id =
      if id = buffid ∧ buff.event = some event ∧ event ≠ .boolean false then none
      else unit.event event id := by
  rw [removebuff]
  simp only [isBuff]
  cases isEvent : buff.event with
  | none => exact (if_neg fun holds => nomatch holds.2.1).symm
  | some own =>
      dsimp only
      split
      next isFalse =>
        refine (if_neg ?_).symm
        rintro ⟨-, same, notFalse⟩
        exact notFalse (Option.some_inj.mp same ▸ isFalse)
      next notFalse =>
        by_cases same : event = own
        · subst same
          rw [Function.update_self]
          by_cases here : id = buffid
          · rw [here, Function.update_self, if_pos ⟨rfl, rfl, notFalse⟩]
          · rw [Function.update_of_ne here, if_neg fun holds => here holds.1]
        · rw [Function.update_of_ne same,
            if_neg fun holds => same (Option.some_inj.mp holds.2.1).symm]

end Removed

end Calls

section Invariant

variable {Number Handler : Type*} [AddCommGroup Number]

/-- The unit is exact, and each buff is the one its call put in. -/
structure Sound (attrs : Key → Number) (traced : Traced Number Handler) : Prop where
  exact_ : Exact attrs traced
  record : ∀ id buff, traced.unit.buffs id = some buff → ∃ made, traced.made id = some made ∧
    buff.event = eventOf made

variable {attrs : Key → Number} {traced : Traced Number Handler}

theorem sound_initial : Sound attrs (initial attrs : Traced Number Handler) where
  exact_ := {
    ids := fun id isLive => nomatch isLive
    attrs := fun k => by
      have nothing : total (fun _ => none : Nat → Option (Buff Number)) k = 0 :=
        Finset.sum_const_zero
      rw [initial, nothing, add_zero]
    roundend := fun id func => iff_of_false nofun fun isLive => nomatch isLive.1
    event := fun event id func => iff_of_false nofun fun isLive => nomatch isLive.1 }
  record := fun id buff isBuff => nomatch isBuff

theorem made_make {tid : Int} {made : Made Number Handler} :
    (traceStep traced (.make tid made)).made =
      Function.update traced.made (nextId traced.unit) (some made) := rfl

omit [AddCommGroup Number] in
/-- One table of handlers when a buff is made, whose handler replaces an old one in it. -/
theorem handler_made {handlers after : Nat → Option Handler}
    {kind : Handler → Made Number Handler} {madeBefore : Nat → Option (Made Number Handler)}
    {made : Made Number Handler} {buffs : Nat → Option (Buff Number)} {buff : Buff Number}
    {new id : Nat} {func : Handler}
    (before : handlers id = some func ↔
      (buffs id).isSome ∧ madeBefore id = some (kind func))
    (others : id ≠ new → after id = handlers id)
    (here : after new = some func ↔
      made = kind func ∨ (handlers new = some func ∧ ∀ other, made ≠ kind other))
    (replaces : (handlers new).isSome → ∃ func, made = kind func) :
    after id = some func ↔ (Function.update buffs new (some buff) id).isSome ∧
      Function.update madeBefore new (some made) id = some (kind func) := by
  by_cases isNew : id = new
  · rw [isNew, Function.update_self, Function.update_self, here, Option.some_inj]
    refine ⟨fun holds => ⟨rfl, ?_⟩, fun holds => Or.inl holds.2⟩
    obtain same | ⟨there, other⟩ := holds
    · exact same
    · obtain ⟨func, same⟩ := replaces (Option.isSome_iff_exists.mpr ⟨_, there⟩)
      exact absurd same (other func)
  · rw [others isNew, Function.update_of_ne isNew, Function.update_of_ne isNew]
    exact before

theorem Sound.make (sound : Sound attrs traced) {tid : Int} {made : Made Number Handler}
    (replaceable : Replaceable traced.unit made) :
    Sound attrs (traceStep traced (.make tid made)) := by
  have buffs : (traceStep traced (.make tid made)).unit.buffs = Function.update traced.unit.buffs
    (nextId traced.unit) (some (newBuff traced.unit tid made)) := make_buffs
  refine ⟨⟨fun id isLive => ?_, fun k => ?_, fun id func => ?_, fun event id func => ?_⟩,
    fun id buff isBuff => ?_⟩
  · rw [buffs] at isLive
    by_cases isNew : id = nextId traced.unit
    · exact isNew ▸ nextId_lt
    · rw [Function.update_of_ne isNew] at isLive
      exact sound.exact_.ids id isLive
  · have nothingLost : amountAt traced.unit.buffs k (nextId traced.unit) = 0 := by
      rw [amountAt]
      cases isBuff : traced.unit.buffs (nextId traced.unit) with
      | none => rfl
      | some buff => exact replaceable.attrs buff isBuff k
    rw [buffs, total_update nextId_lt, nothingLost, sub_zero, ← add_assoc,
      ← sound.exact_.attrs k]
    exact make_attrs
  · rw [buffs, made_make]
    exact handler_made (sound.exact_.roundend id func) make_roundend_of_ne make_roundend_self
      replaceable.roundend
  · rw [buffs, made_make]
    exact handler_made (sound.exact_.event event id func) make_event_of_ne make_event_self
      (replaceable.event event)
  · rw [buffs] at isBuff
    rw [made_make]
    by_cases isNew : id = nextId traced.unit
    · rw [isNew, Function.update_self] at isBuff ⊢
      obtain rfl := Option.some_inj.mp isBuff
      exact ⟨made, rfl, rfl⟩
    · rw [Function.update_of_ne isNew] at isBuff ⊢
      exact sound.record id buff isBuff

/-- A call that leaves the unit exact has lost no buff. -/
theorem replaceable_of_exact (sound : Sound attrs traced) {tid : Int}
    {made : Made Number Handler} (after : Exact attrs (traceStep traced (.make tid made))) :
    Replaceable traced.unit made := by
  have buffs : (traceStep traced (.make tid made)).unit.buffs = Function.update traced.unit.buffs
    (nextId traced.unit) (some (newBuff traced.unit tid made)) := make_buffs
  refine ⟨fun buff isBuff k => ?_, fun isSet => ?_, fun event isSet => ?_⟩
  · have added : traced.unit.attrs k + (newBuff traced.unit tid made).amount k = _ :=
      make_attrs.symm.trans (after.attrs k)
    rw [buffs, total_update nextId_lt, sound.exact_.attrs k, amountAt, isBuff, add_assoc] at added
    exact sub_eq_self.mp (add_right_cancel (add_left_cancel added)).symm
  · obtain ⟨func, isFunc⟩ := Option.isSome_iff_exists.mp isSet
    by_contra other
    have still : (Battle.make traced.unit tid made).roundend (nextId traced.unit) = some func :=
      make_roundend_self.mpr (Or.inr ⟨isFunc, fun func same => other ⟨func, same⟩⟩)
    have isMade := ((after.roundend _ func).mp still).2
    rw [made_make, Function.update_self] at isMade
    exact other ⟨func, Option.some_inj.mp isMade⟩
  · obtain ⟨func, isFunc⟩ := Option.isSome_iff_exists.mp isSet
    by_contra other
    have still : (Battle.make traced.unit tid made).event event (nextId traced.unit) = some func :=
      make_event_self.mpr (Or.inr ⟨isFunc, fun func same => other ⟨func, same⟩⟩)
    have isMade := ((after.event event _ func).mp still).2
    rw [made_make, Function.update_self] at isMade
    exact other ⟨func, Option.some_inj.mp isMade⟩

theorem Sound.removebuff_none (sound : Sound attrs traced) {buffid : Nat}
    (isNone : traced.unit.buffs buffid = none) :
    traceStep traced (.removebuff buffid) = traced := by
  have noHandler : traced.unit.roundend buffid = none := by
    cases isHandler : traced.unit.roundend buffid with
    | none => rfl
    | some func =>
        have isLive := ((sound.exact_.roundend buffid func).mp isHandler).1
        rw [isNone] at isLive
        cases isLive
  rw [traceStep, step, removebuff_of_none isNone, ← noHandler, Function.update_eq_self]

theorem Sound.removebuff (sound : Sound attrs traced) {buffid : Nat}
    (keeps : Keeps traced.unit (.removebuff buffid)) :
    Sound attrs (traceStep traced (.removebuff buffid)) := by
  cases isBuff : traced.unit.buffs buffid with
  | none =>
      rw [sound.removebuff_none isBuff]
      exact sound
  | some buff =>
      have isGone : (Function.update traced.unit.buffs buffid none buffid).isSome = false := by
        rw [Function.update_self, Option.isSome_none]
      have buffs : (traceStep traced (.removebuff buffid)).unit.buffs =
        Function.update traced.unit.buffs buffid none := removebuff_buffs isBuff
      refine ⟨⟨fun id isLive => ?_, fun k => ?_, fun id func => ?_, fun event id func => ?_⟩,
        fun id other isOther => ?_⟩
      · rw [buffs] at isLive
        by_cases same : id = buffid
        · rw [same, isGone] at isLive
          cases isLive
        · rw [Function.update_of_ne same] at isLive
          exact sound.exact_.ids id isLive
      · have inRange := sound.exact_.ids buffid (by rw [isBuff]; rfl)
        rw [buffs, total_update inRange, amountAt, isBuff]
        refine (removebuff_attrs isBuff).trans ?_
        rw [sound.exact_.attrs k, Option.map_some, Option.map_none, Option.getD_some,
          Option.getD_none, add_zero, add_sub_assoc]
      · rw [buffs]
        change (Battle.removebuff traced.unit buffid).roundend id = some func ↔ _
        rw [removebuff_roundend]
        by_cases same : id = buffid
        · rw [same, isGone, Function.update_self]
          exact iff_of_false nofun fun holds => nomatch holds.1
        · rw [Function.update_of_ne same, Function.update_of_ne same]
          exact sound.exact_.roundend id func
      · rw [buffs]
        change (Battle.removebuff traced.unit buffid).event event id = some func ↔ _
        rw [removebuff_event isBuff]
        by_cases same : id = buffid
        · rw [same, isGone]
          refine iff_of_false (fun isSet => ?_) fun holds => nomatch holds.1
          split at isSet
          next => cases isSet
          next notGone =>
            -- The buff was made with this handler, so its event is this one.
            obtain ⟨made, isMade, sameEvent⟩ := sound.record buffid buff isBuff
            have isHandler := ((sound.exact_.event event buffid func).mp isSet).2
            obtain rfl := Option.some_inj.mp (isMade.symm.trans isHandler)
            exact notGone ⟨rfl, sameEvent, fun isFalse => keeps buff isBuff (isFalse ▸ sameEvent)⟩
        · rw [if_neg fun holds => same holds.1, Function.update_of_ne same]
          exact sound.exact_.event event id func
      · rw [buffs] at isOther
        by_cases same : id = buffid
        · rw [same, Function.update_self] at isOther
          cases isOther
        · rw [Function.update_of_ne same] at isOther
          exact sound.record id other isOther

/-- A call that leaves the unit exact has removed the handler of its buff. -/
theorem keeps_of_exact (sound : Sound attrs traced) {buffid : Nat}
    (after : Exact attrs (traceStep traced (.removebuff buffid))) :
    Keeps traced.unit (.removebuff buffid) := by
  intro buff isBuff isFalse
  obtain ⟨made, isMade, sameEvent⟩ := sound.record buffid buff isBuff
  rw [isFalse] at sameEvent
  cases made with
  | buffattr attrs => cases sameEvent
  | buffRoundend func => cases sameEvent
  | buffevent event func =>
      obtain rfl := Option.some_inj.mp sameEvent
      have isSet := (sound.exact_.event (.boolean false) buffid func).mpr
        ⟨by rw [isBuff]; rfl, isMade⟩
      have still : (traceStep traced (.removebuff buffid)).unit.event (.boolean false) buffid =
          some func := by
        change (Battle.removebuff traced.unit buffid).event (.boolean false) buffid = some func
        rw [removebuff_event isBuff, if_neg fun holds => holds.2.2 rfl]
        exact isSet
      have isLive := ((after.event (.boolean false) buffid func).mp still).1
      have buffs : (traceStep traced (.removebuff buffid)).unit.buffs =
        Function.update traced.unit.buffs buffid none := removebuff_buffs isBuff
      rw [buffs, Function.update_self] at isLive
      cases isLive

theorem run_concat {history : List (Call Number Handler)} {call : Call Number Handler} :
    run attrs (history ++ [call]) = traceStep (run attrs history) call := by
  rw [run, List.foldl_append]
  rfl

end Invariant

/-- In every run, all states are exact exactly when no buff is lost. -/
theorem exact_iff_nothing_lost {Number Handler : Type*} [AddCommGroup Number] (attrs : Key → Number)
    (history : List (Call Number Handler)) :
    (∀ before after, history = before ++ after → Exact attrs (run attrs before)) ↔
      ∀ before call after, history = before ++ call :: after →
        Keeps (run attrs before).unit call := by
  refine @forall_good_iff _ history (fun before => Sound attrs (run attrs before))
    (fun before => Exact attrs (run attrs before)) (fun _ => True)
    (fun before call => Keeps (run attrs before).unit call) sound_initial
    (fun before sound => sound.exact_) ?_ ?_ fun _ _ => trivial
  · intro before call sound _ keeps
    rw [run_concat]
    cases call with
    | make tid made => exact sound.make keeps
    | removebuff buffid => exact sound.removebuff keeps
  · intro before call sound _ after
    rw [run_concat] at after
    cases call with
    | make tid made => exact replaceable_of_exact sound after
    | removebuff buffid => exact keeps_of_exact sound after

section WrapAround

/-- A buff that adds 1 to an attribute, with as many buffs behind it that add nothing. -/
def oneThenEmpty (count : Nat) : List (Call Int Nat) :=
  .make 10 (.buffattr fun k => if k = .integer 10 then some 1 else none) ::
    List.replicate count (.make 10 (.buffattr fun _ => none))

theorem oneThenEmpty_succ (count : Nat) : oneThenEmpty (count + 1) =
    oneThenEmpty count ++ [.make 10 (.buffattr fun _ => none)] := by
  rw [oneThenEmpty, List.replicate_succ', ← List.cons_append]
  rfl

theorem run_oneThenEmpty_succ (count : Nat) :
    (run (fun _ => 0) (oneThenEmpty (count + 1))).unit =
      make (run (fun _ => 0) (oneThenEmpty count)).unit 10 (.buffattr fun _ => none) := by
  rw [oneThenEmpty_succ, run_concat]
  rfl

theorem run_oneThenEmpty (count : Nat) (small : count < 0xfffe) :
    (run (fun _ => 0) (oneThenEmpty count)).unit.idx = count + 1 ∧
    (run (fun _ => 0) (oneThenEmpty count)).unit.attrs (.integer 10) = 1 ∧
    ∀ id, id ≠ 1 →
      amountAt (run (fun _ => 0) (oneThenEmpty count)).unit.buffs (.integer 10) id = 0 := by
  induction count with
  | zero =>
      refine ⟨rfl, rfl, fun id isOther => ?_⟩
      exact amountAt_make.trans (if_neg isOther)
  | succ count ih =>
      obtain ⟨idx, attrs, amounts⟩ := ih (by omega)
      rw [run_oneThenEmpty_succ]
      refine ⟨?_, ?_, fun id isOther => ?_⟩
      · rw [make_idx, nextId, idx, if_neg (by omega)]
      · rw [make_attrs, attrs]
        rfl
      · rw [amountAt_make]
        split
        next => rfl
        next => exact amounts id isOther

/-- The 65535th buff takes the place of the first one, whose attribute is never undone. -/
theorem not_exact_overwritten :
    ¬ ∀ (attrs : Key → Int) (history : List (Call Int Nat)) before after,
    history = before ++ after → Exact attrs (run attrs before) := by
  intro all
  have exact_ := all (fun _ => 0) (oneThenEmpty (0xfffd + 1)) _ [] (List.append_nil _).symm
  obtain ⟨idx, attrs, amounts⟩ := run_oneThenEmpty 0xfffd (by omega)
  have isFirst : nextId (run (fun _ => 0) (oneThenEmpty 0xfffd)).unit = 1 := by
    rw [nextId, idx, if_pos (by omega)]
  have same := exact_.attrs (.integer 10)
  have nothing :
      total (run (fun _ => 0) (oneThenEmpty (0xfffd + 1))).unit.buffs (.integer 10) = 0 := by
    refine Finset.sum_eq_zero fun id _ => ?_
    rw [run_oneThenEmpty_succ, amountAt_make]
    split
    next => rfl
    next isOther => exact amounts id (isFirst ▸ isOther)
  rw [nothing, run_oneThenEmpty_succ, make_attrs, attrs] at same
  exact absurd same (by decide)

end WrapAround

end Battle

end LuaServer
