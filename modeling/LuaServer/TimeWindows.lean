import LuaServer.CivilDates
import Mathlib.Data.List.Iterate
import Mathlib.Tactic.Ring

/-!
# Recurring time windows

The windows of the script start again every day, week, month or year, and the one that is
used is the first that has not ended yet.  Three starts are tried, the first of them before
now.  `os.time` rewrites the fields of its table as those of the date it found, in a time
zone without clock changes.
-/

namespace LuaServer

namespace Time

open CivilDates

/-- The fields of `os.date("*t")` that the script uses. -/
structure DateTable where
  year : Int
  month : Int
  day : Int
  hour : Int
  min : Int
  sec : Int
  wday : Int

/-- A table of some of the fields. -/
structure TimeTable where
  year : Option Int
  month : Option Int
  day : Option Int
  hour : Option Int
  min : Option Int
  sec : Option Int

/-- The first day of 1970. -/
def epoch : Int := 719527

section Functions

variable (zone now : Int)

/-- `os.date("*t", ts)`, so many seconds ahead of the universal time. -/
def osDate (ts : Int) : DateTable :=
  let day := (ts + zone) / 86400
  let second := (ts + zone) % 86400
  let month := monthOf (day + epoch)
  { year := month / 12
    month := month % 12 + 1
    day := day + epoch - monthStart month + 1
    hour := second / 3600
    min := second % 3600 / 60
    sec := second % 60
    wday := (day + 4) % 7 + 1 }

/-- `os.time(tb)`, and the table with its fields normalised. -/
def osTime (tb : DateTable) : Int × DateTable :=
  let day := monthStart (12 * tb.year + tb.month - 1) + tb.day - 1 - epoch
  let ts := 86400 * day + 3600 * tb.hour + 60 * tb.min + tb.sec - zone
  (ts, osDate zone ts)

/-- `week_start`, for now. -/
def weekStart : Int × DateTable :=
  let tb := osDate zone now
  let wday := tb.wday - 1
  let wday := if 0 = wday then 7 else wday
  osTime zone { tb with hour := 0, min := 0, sec := 0, day := tb.day - (wday - 1) }

/-- `add_duration`. -/
def addDuration (ts : Int) (duraTb : TimeTable) : Int × DateTable :=
  let timeTb := osDate zone ts
  osTime zone
    { timeTb with
      year := timeTb.year + duraTb.year.getD 0
      month := timeTb.month + duraTb.month.getD 0
      day := timeTb.day + duraTb.day.getD 0
      hour := timeTb.hour + duraTb.hour.getD 0
      min := timeTb.min + duraTb.min.getD 0
      sec := timeTb.sec + duraTb.sec.getD 0 }

/-- The loop that all recurrences share: shift the table, and return the window that
starts then if it has not ended yet. -/
def tryStarts (duration : TimeTable) (shift : DateTable → DateTable) :
    Nat → DateTable → Option (Int × Int)
  | 0, _ => none
  | rounds + 1, timeTb =>
      let (startTs, timeTb) := osTime zone (shift timeTb)
      let endTs := (addDuration zone startTs duration).1
      if now < endTs then some (startTs, endTs)
      else tryStarts duration shift rounds timeTb

/-- `parse_weekly`. -/
def parseWeekly (weekly duration : TimeTable) : Option (Int × Int) :=
  let (_, timeTb) := addDuration zone (weekStart zone now).1 weekly
  tryStarts zone now duration (fun tb => { tb with day := tb.day + 7 }) 3
    { timeTb with day := timeTb.day - 1 - 7 * 2 }

/-- `parse_daily`. -/
def parseDaily (daily duration : TimeTable) : Option (Int × Int) :=
  let timeTb :=
    { osDate zone now with
      hour := daily.hour.getD 0, min := daily.min.getD 0, sec := daily.sec.getD 0 }
  tryStarts zone now duration (fun tb => { tb with day := tb.day + 1 }) 3
    { timeTb with day := timeTb.day - 2 }

/-- `parse_monthly`. -/
def parseMonthly (monthly duration : TimeTable) : Option (Int × Int) :=
  let timeTb :=
    { osDate zone now with
      day := monthly.day.getD 1
      hour := monthly.hour.getD 0, min := monthly.min.getD 0, sec := monthly.sec.getD 0 }
  tryStarts zone now duration (fun tb => { tb with month := tb.month + 1 }) 3
    { timeTb with month := timeTb.month - 2 }

/-- `parse_yearly`. -/
def parseYearly (yearly duration : TimeTable) : Option (Int × Int) :=
  let timeTb :=
    { osDate zone now with
      month := yearly.month.getD 1, day := yearly.day.getD 1
      hour := yearly.hour.getD 0, min := yearly.min.getD 0, sec := yearly.sec.getD 0 }
  tryStarts zone now duration (fun tb => { tb with year := tb.year + 1 }) 3
    { timeTb with year := timeTb.year - 2 }

/-- An entry of a configuration that recurs. -/
inductive Info where
  | daily (daily duration : TimeTable)
  | weekly (weekly duration : TimeTable)
  | monthly (monthly duration : TimeTable)
  | yearly (yearly duration : TimeTable)

/-- `parse`. -/
def parse : Info → Option (Int × Int)
  | .daily daily duration => parseDaily zone now daily duration
  | .weekly weekly duration => parseWeekly zone now weekly duration
  | .monthly monthly duration => parseMonthly zone now monthly duration
  | .yearly yearly duration => parseYearly zone now yearly duration

/-- `math.maxinteger`. -/
def maxinteger : Int := 9223372036854775807

/-- The body of the loop of `M.parse` over the windows. -/
def earlier (found : Int × Option (Int × Int)) (window : Int × Int) : Int × Option (Int × Int) :=
  if window.1 < found.1 then (window.1, some window) else found

/-- `M.parse`, for a list of entries. -/
def M.parse (info : List Info) : Option (Int × Int) :=
  let retarr := info.filterMap (Time.parse zone now)
  (retarr.foldl earlier (maxinteger, none)).2

end Functions

section Starts

variable {zone now : Int}

/-- The window of a start, if it has not ended yet. -/
def openWindow (zone now : Int) (duration : TimeTable) (startTs : Int) : Option (Int × Int) :=
  let endTs := (addDuration zone startTs duration).1
  if now < endTs then some (startTs, endTs) else none

/-- The start behind another one. -/
def nextStart (zone : Int) (shift : DateTable → DateTable) (startTs : Int) : Int :=
  (osTime zone (shift (osDate zone startTs))).1

/-- The loop finds the first open window of the starts that follow one another. -/
theorem tryStarts_eq (duration : TimeTable) (shift : DateTable → DateTable) (rounds : Nat)
    (timeTb : DateTable) :
    tryStarts zone now duration shift rounds timeTb =
      (List.iterate (nextStart zone shift) (osTime zone (shift timeTb)).1 rounds).findSome?
        (openWindow zone now duration) := by
  induction rounds generalizing timeTb with
  | zero => rfl
  | succ rounds ih =>
      rw [tryStarts, List.iterate, List.findSome?_cons, openWindow]
      by_cases isOpen : now < (addDuration zone (osTime zone (shift timeTb)).1 duration).1
      · simp only [if_pos isOpen]
      · simp only [if_neg isOpen, ih]
        rfl

/-- The time of a date whose day and time of day are changed. -/
theorem osTime_osDate (ts day hour min sec : Int) :
    (osTime zone { osDate zone ts with day := day, hour := hour, min := min, sec := sec }).1 =
      86400 * ((ts + zone) / 86400 + (day - (osDate zone ts).day)) +
        3600 * hour + 60 * min + sec - zone := by
  have month : 12 * (osDate zone ts).year + (osDate zone ts).month - 1 =
      monthOf ((ts + zone) / 86400 + epoch) := by
    simp only [osDate]
    omega
  simp only [osTime, month]
  simp only [osDate]
  omega

/-- A shift by days is exact. -/
theorem nextStart_days (ts days : Int) :
    nextStart zone (fun tb => { tb with day := tb.day + days }) ts = ts + 86400 * days := by
  refine (osTime_osDate ts ((osDate zone ts).day + days) (osDate zone ts).hour
    (osDate zone ts).min (osDate zone ts).sec).trans ?_
  simp only [osDate]
  omega

theorem addDuration_of_days {duraTb : TimeTable} (noYear : duraTb.year.getD 0 = 0)
    (noMonth : duraTb.month.getD 0 = 0) (ts : Int) :
    (addDuration zone ts duraTb).1 = ts + 86400 * duraTb.day.getD 0 +
      3600 * duraTb.hour.getD 0 + 60 * duraTb.min.getD 0 + duraTb.sec.getD 0 := by
  simp only [addDuration, noYear, noMonth, add_zero]
  refine (osTime_osDate ts _ _ _ _).trans ?_
  simp only [osDate]
  omega

end Starts

/-- An entry that recurs every day or every week. -/
inductive Periodic where
  | daily (daily duration : TimeTable)
  | weekly (weekly duration : TimeTable)

/-- A time of the day. -/
structure TimeTable.IsTime (tb : TimeTable) : Prop where
  hour : 0 ≤ tb.hour.getD 0 ∧ tb.hour.getD 0 < 24
  min : 0 ≤ tb.min.getD 0 ∧ tb.min.getD 0 < 60
  sec : 0 ≤ tb.sec.getD 0 ∧ tb.sec.getD 0 < 60

/-- The date has the time of day of a table. -/
structure DateTable.HasTime (date : DateTable) (tb : TimeTable) : Prop where
  hour : date.hour = tb.hour.getD 0
  min : date.min = tb.min.getD 0
  sec : date.sec = tb.sec.getD 0

/-- The day of the week, from 1 for Monday to 7 for Sunday. -/
def DateTable.weekday (date : DateTable) : Int :=
  if date.wday = 1 then 7 else date.wday - 1

namespace Periodic

def info : Periodic → Info
  | .daily table duration => .daily table duration
  | .weekly table duration => .weekly table duration

def duration : Periodic → TimeTable
  | .daily _ duration => duration
  | .weekly _ duration => duration

/-- The seconds from one start to the next. -/
def period : Periodic → Int
  | .daily _ _ => 86400
  | .weekly _ _ => 7 * 86400

/-- The entry is a time of the day, or a day of the week with one, and a duration that is
positive and at most one period. -/
structure Proper (zone : Int) (entry : Periodic) : Prop where
  table : match entry with
    | .daily table _ => table.IsTime
    | .weekly table _ => table.IsTime ∧ table.year = none ∧ table.month = none ∧
        ∃ day, table.day = some day ∧ 1 ≤ day ∧ day ≤ 7
  lasts : ∀ ts, ts < (addDuration zone ts entry.duration).1 ∧
    (addDuration zone ts entry.duration).1 ≤ ts + entry.period

/-- A window of the entry starts. -/
def Starts (zone ts : Int) : Periodic → Prop
  | .daily table _ => (osDate zone ts).HasTime table
  | .weekly table _ => (osDate zone ts).HasTime table ∧
      table.day = some (osDate zone ts).weekday

/-- The window of the entry that starts first of those that have not ended yet. -/
structure Earliest (zone now : Int) (entry : Periodic) (window : Int × Int) : Prop where
  starts : entry.Starts zone window.1
  ends : window.2 = (addDuration zone window.1 entry.duration).1
  isOpen : now < window.2
  earliest : ∀ ts, entry.Starts zone ts → now < (addDuration zone ts entry.duration).1 →
    window.1 ≤ ts

end Periodic

section Windows

variable {zone now : Int} {entry : Periodic}

/-- The seconds of a time of the day. -/
def TimeTable.seconds (tb : TimeTable) : Int :=
  3600 * tb.hour.getD 0 + 60 * tb.min.getD 0 + tb.sec.getD 0

theorem seconds_range {tb : TimeTable} (isTime : tb.IsTime) :
    0 ≤ tb.seconds ∧ tb.seconds < 86400 := by
  have hour := isTime.hour
  have min := isTime.min
  have sec := isTime.sec
  simp only [TimeTable.seconds]
  omega

theorem hasTime_iff {tb : TimeTable} (isTime : tb.IsTime) (ts : Int) :
    (osDate zone ts).HasTime tb ↔ (ts + zone) % 86400 = tb.seconds := by
  have hour := isTime.hour
  have min := isTime.min
  have sec := isTime.sec
  simp only [TimeTable.seconds]
  constructor
  · rintro ⟨sameHour, sameMin, sameSec⟩
    simp only [osDate] at sameHour sameMin sameSec
    omega
  · intro same
    refine ⟨?_, ?_, ?_⟩ <;> simp only [osDate] <;> omega

theorem weekday_osDate (ts : Int) :
    (osDate zone ts).weekday = ((ts + zone) / 86400 + 3) % 7 + 1 := by
  by_cases sunday : (osDate zone ts).wday = 1
  · rw [DateTable.weekday, if_pos sunday]
    simp only [osDate] at sunday
    omega
  · rw [DateTable.weekday, if_neg sunday]
    simp only [osDate] at sunday ⊢
    omega

theorem openWindow_eq_some {duration : TimeTable} {startTs : Int} {window : Int × Int} :
    openWindow zone now duration startTs = some window ↔
      window.1 = startTs ∧ window.2 = (addDuration zone startTs duration).1 ∧
        now < window.2 := by
  obtain ⟨s, e⟩ := window
  simp only [openWindow, Option.ite_none_right_eq_some, Option.some.injEq, Prod.mk.injEq]
  constructor
  · rintro ⟨isOpen, rfl, rfl⟩
    exact ⟨rfl, rfl, isOpen⟩
  · rintro ⟨rfl, rfl, isOpen⟩
    exact ⟨isOpen, rfl, rfl⟩

theorem openWindow_eq_none {duration : TimeTable} {startTs : Int} :
    openWindow zone now duration startTs = none ↔
      (addDuration zone startTs duration).1 ≤ now := by
  simp [openWindow]

/-- An open window is the earliest when those before it have ended. -/
theorem earliest_of_ended {first index : Int} (positive : 0 < entry.period)
    (starts : ∀ ts, entry.Starts zone ts ↔ ∃ index, ts = first + entry.period * index)
    (ended : ∀ before < index,
      (addDuration zone (first + entry.period * before) entry.duration).1 ≤ now)
    (isOpen : now < (addDuration zone (first + entry.period * index) entry.duration).1) :
    entry.Earliest zone now (first + entry.period * index,
      (addDuration zone (first + entry.period * index) entry.duration).1) := by
  refine ⟨(starts _).mpr ⟨index, rfl⟩, rfl, isOpen, fun ts starting notEnded => ?_⟩
  obtain ⟨other, rfl⟩ := (starts ts).mp starting
  have notBefore : ¬ other < index := fun before =>
    absurd notEnded (not_lt.mpr (ended other before))
  have := mul_le_mul_of_nonneg_left (not_lt.mp notBefore) positive.le
  omega

/-- The first open window of starts that follow one another is the earliest, when the
windows before them have ended. -/
theorem exists_earliest_from {first : Int} {index : Int} (rounds : Nat)
    (positive : 0 < entry.period)
    (starts : ∀ ts, entry.Starts zone ts ↔ ∃ index, ts = first + entry.period * index)
    (ended : ∀ before < index,
      (addDuration zone (first + entry.period * before) entry.duration).1 ≤ now)
    (isOpen : now <
      (addDuration zone (first + entry.period * (index + rounds)) entry.duration).1) :
    ∃ window, (List.iterate (· + entry.period) (first + entry.period * index)
        (rounds + 1)).findSome? (openWindow zone now entry.duration) = some window ∧
      entry.Earliest zone now window ∧ window.1 ≤ first + entry.period * (index + rounds) := by
  induction rounds generalizing index with
  | zero =>
      rw [Nat.cast_zero, add_zero] at isOpen ⊢
      refine ⟨(_, _), ?_, earliest_of_ended positive starts ended isOpen, le_refl _⟩
      rw [List.iterate, List.findSome?_cons, openWindow, if_pos isOpen]
  | succ rounds ih =>
      rw [List.iterate, List.findSome?_cons]
      cases opened : openWindow zone now entry.duration (first + entry.period * index) with
      | some window =>
          obtain ⟨isStart, isEnd, isOpen⟩ := openWindow_eq_some.mp opened
          obtain ⟨_, _⟩ := window
          simp only at isStart isEnd isOpen
          subst isStart isEnd
          refine ⟨_, rfl, earliest_of_ended positive starts ended isOpen, ?_⟩
          have := mul_le_mul_of_nonneg_left
            (show index ≤ index + (rounds + 1 : Nat) by omega) positive.le
          omega
      | none =>
          have next : first + entry.period * index + entry.period =
              first + entry.period * (index + 1) := by rw [mul_add, mul_one, add_assoc]
          have shifted : index + 1 + rounds = index + (rounds + 1 : Nat) := by
            push_cast
            ring
          rw [next]
          rw [← shifted] at isOpen ⊢
          refine ih (fun before upTo => ?_) isOpen
          rcases (Int.lt_add_one_iff.mp upTo).lt_or_eq with earlier | rfl
          · exact ended before earlier
          · exact openWindow_eq_none.mp opened

/-- When the windows fill the distance of their starts at most, three of them around now
are enough. -/
theorem exists_earliest {first : Int} (positive : 0 < entry.period)
    (proper : entry.Proper zone)
    (starts : ∀ ts, entry.Starts zone ts ↔ ∃ index, ts = first + entry.period * index)
    (begun : first ≤ now) (notBegun : now < first + entry.period * 2) :
    ∃ window, (List.iterate (· + entry.period) first 3).findSome?
        (openWindow zone now entry.duration) = some window ∧
      entry.Earliest zone now window ∧ window.1 ≤ now + entry.period * 2 := by
  have earlier : ∀ before < (0 : Int),
      (addDuration zone (first + entry.period * before) entry.duration).1 ≤ now := by
    intro before negative
    have atMost := (proper.lasts (first + entry.period * before)).2
    have below : entry.period * before ≤ entry.period * (-1) :=
      mul_le_mul_of_nonneg_left (by omega) positive.le
    omega
  -- The window of the third start has not ended, because it has not begun.
  have last := (proper.lasts (first + entry.period * 2)).1
  obtain ⟨window, found, earliest, upTo⟩ := @exists_earliest_from zone now entry first 0 2 positive
    starts earlier (by rw [Nat.cast_ofNat, zero_add]; omega)
  rw [mul_zero, add_zero] at found
  rw [Nat.cast_ofNat, zero_add] at upTo
  exact ⟨window, found, earliest, by omega⟩

theorem exists_daily {daily duration : TimeTable}
    (proper : (Periodic.daily daily duration).Proper zone) :
    ∃ window, parseDaily zone now daily duration = some window ∧
      (Periodic.daily daily duration).Earliest zone now window ∧
        window.1 ≤ now + 86400 * 2 := by
  have isTime : daily.IsTime := proper.table
  obtain ⟨nonneg, below⟩ := seconds_range isTime
  have shift : nextStart zone (fun tb => { tb with day := tb.day + 1 }) = (· + 86400) :=
    funext fun ts => nextStart_days ts 1
  rw [parseDaily, tryStarts_eq, shift]
  have isFirst := @osTime_osDate zone now ((osDate zone now).day - 2 + 1) (daily.hour.getD 0)
    (daily.min.getD 0) (daily.sec.getD 0)
  simp only [isFirst]
  refine @exists_earliest zone now (.daily daily duration) _ (show (0 : Int) < 86400 by decide)
    proper (fun ts => ?_) ?_ ?_
  · rw [Periodic.Starts, hasTime_iff isTime]
    simp only [TimeTable.seconds, Periodic.period] at nonneg below ⊢
    constructor
    · intro same
      exact ⟨(ts + zone) / 86400 - (now + zone) / 86400 + 1, by omega⟩
    · rintro ⟨index, rfl⟩
      omega
  · simp only [TimeTable.seconds] at nonneg below
    omega
  · simp only [TimeTable.seconds, Periodic.period] at nonneg below ⊢
    omega

/-- The week starts on its Monday. -/
theorem weekStart_eq : (weekStart zone now).1 =
    86400 * ((now + zone) / 86400 - ((now + zone) / 86400 + 3) % 7) - zone := by
  have weekday := @weekday_osDate zone now
  rw [DateTable.weekday] at weekday
  have isStart := @osTime_osDate zone now
    ((osDate zone now).day - ((((now + zone) / 86400 + 3) % 7 + 1) - 1)) 0 0 0
  have sameDay : (if 0 = (osDate zone now).wday - 1 then 7 else (osDate zone now).wday - 1) =
      ((now + zone) / 86400 + 3) % 7 + 1 := by
    rw [← weekday]
    congr 1
    exact propext ⟨fun zero => by omega, fun one => by omega⟩
  simp only [weekStart, sameDay, isStart]
  omega

theorem parseWeekly_eq (weekly duration : TimeTable) :
    parseWeekly zone now weekly duration =
      tryStarts zone now duration (fun tb => { tb with day := tb.day + 7 }) 3
        { osDate zone (addDuration zone (weekStart zone now).1 weekly).1 with
          day := (osDate zone (addDuration zone (weekStart zone now).1 weekly).1).day -
            1 - 7 * 2 } :=
  rfl

theorem exists_weekly {weekly duration : TimeTable}
    (proper : (Periodic.weekly weekly duration).Proper zone) :
    ∃ window, parseWeekly zone now weekly duration = some window ∧
      (Periodic.weekly weekly duration).Earliest zone now window ∧
        window.1 ≤ now + 7 * 86400 * 2 := by
  obtain ⟨isTime, noYear, noMonth, day, isDay, fromMonday, upToSunday⟩ := proper.table
  obtain ⟨nonneg, below⟩ := seconds_range isTime
  have shift : nextStart zone (fun tb => { tb with day := tb.day + 7 }) = (· + 7 * 86400) :=
    funext fun ts => nextStart_days ts 7
  have added := @addDuration_of_days zone weekly (by rw [noYear]; rfl) (by rw [noMonth]; rfl)
    (weekStart zone now).1
  rw [weekStart_eq, isDay, Option.getD_some] at added
  have isFirst : ∀ ts, (osTime zone
      { osDate zone ts with day := (osDate zone ts).day - 1 - 7 * 2 + 7 }).1 =
        ts + 86400 * (-8) := by
    intro ts
    have shifted := @nextStart_days zone ts (-8)
    rw [nextStart] at shifted
    rw [← shifted]
    simp only [show (osDate zone ts).day - 1 - 7 * 2 + 7 = (osDate zone ts).day + -8 by omega]
  rw [parseWeekly_eq, tryStarts_eq, shift]
  simp only [isFirst, weekStart_eq, added]
  refine @exists_earliest zone now (.weekly weekly duration) _
    (show (0 : Int) < 7 * 86400 by decide) proper (fun ts => ?_) ?_ ?_
  · rw [Periodic.Starts, hasTime_iff isTime, isDay, Option.some.injEq, weekday_osDate]
    simp only [TimeTable.seconds, Periodic.period] at nonneg below ⊢
    constructor
    · rintro ⟨same, sameDay⟩
      refine ⟨((ts + zone) / 86400 + 3) / 7 - ((now + zone) / 86400 + 3) / 7 + 1, ?_⟩
      omega
    · rintro ⟨index, rfl⟩
      omega
  · simp only [TimeTable.seconds] at nonneg below
    omega
  · simp only [TimeTable.seconds, Periodic.period] at nonneg below ⊢
    omega

/-- Every entry has an earliest window, at most two weeks from now. -/
theorem exists_window (proper : entry.Proper zone) :
    ∃ window, Time.parse zone now entry.info = some window ∧
      entry.Earliest zone now window ∧ window.1 ≤ now + 7 * 86400 * 2 := by
  cases entry with
  | daily table duration =>
      obtain ⟨window, found, earliest, upTo⟩ := @exists_daily zone now table duration proper
      exact ⟨window, found, earliest, by omega⟩
  | weekly table duration =>
      obtain ⟨window, found, earliest, upTo⟩ := @exists_weekly zone now table duration proper
      exact ⟨window, found, earliest, upTo⟩

/-- The windows of one entry that start earliest start at one time. -/
theorem Periodic.Earliest.start_le {window other : Int × Int}
    (earliest : entry.Earliest zone now window) (isOther : entry.Earliest zone now other) :
    window.1 ≤ other.1 := by
  refine earliest.earliest other.1 isOther.starts ?_
  rw [← isOther.ends]
  exact isOther.isOpen

/-- The loop over the windows keeps the one that starts first. -/
theorem foldl_earlier (windows : List (Int × Int)) (found : Int × Option (Int × Int)) :
    (windows.foldl earlier found).1 ≤ found.1 ∧
      (∀ window ∈ windows, (windows.foldl earlier found).1 ≤ window.1) ∧
      (windows.foldl earlier found = found ∨
        ∃ window ∈ windows, windows.foldl earlier found = (window.1, some window)) := by
  induction windows generalizing found with
  | nil => exact ⟨le_refl _, fun window isMember => absurd isMember (List.not_mem_nil),
      Or.inl rfl⟩
  | cons window windows ih =>
      rw [List.foldl_cons]
      obtain ⟨upTo, minimal, origin⟩ := ih (earlier found window)
      by_cases before : window.1 < found.1
      · rw [earlier, if_pos before] at upTo minimal origin ⊢
        refine ⟨upTo.trans before.le, List.forall_mem_cons.mpr ⟨upTo, minimal⟩, Or.inr ?_⟩
        rcases origin with unchanged | ⟨other, isMember, isOther⟩
        · exact ⟨window, List.mem_cons_self, unchanged⟩
        · exact ⟨other, List.mem_cons_of_mem _ isMember, isOther⟩
      · rw [earlier, if_neg before] at upTo minimal origin ⊢
        refine ⟨upTo, List.forall_mem_cons.mpr ⟨upTo.trans (not_lt.mp before), minimal⟩, ?_⟩
        rcases origin with unchanged | ⟨other, isMember, isOther⟩
        · exact Or.inl unchanged
        · exact Or.inr ⟨other, List.mem_cons_of_mem _ isMember, isOther⟩

/-- The window of a list is one of its entries', and starts first of all of them. -/
theorem exists_first {entries : List Periodic} (notEmpty : entries ≠ [])
    (proper : ∀ entry ∈ entries, entry.Proper zone)
    (notLate : now + 7 * 86400 * 2 < maxinteger) :
    ∃ window, M.parse zone now (entries.map Periodic.info) = some window ∧
      (∃ entry ∈ entries, entry.Earliest zone now window) ∧
      ∀ entry ∈ entries, ∀ other, entry.Earliest zone now other → window.1 ≤ other.1 := by
  obtain ⟨_, minimal, origin⟩ := foldl_earlier
    ((entries.map Periodic.info).filterMap (Time.parse zone now)) (maxinteger, none)
  have isFound : ∀ entry ∈ entries, ∀ window, Time.parse zone now entry.info = some window →
      window ∈ (entries.map Periodic.info).filterMap (Time.parse zone now) := by
    intro entry isEntry window found
    exact List.mem_filterMap.mpr ⟨entry.info, List.mem_map_of_mem isEntry, found⟩
  rcases origin with unchanged | ⟨window, isWindow, isResult⟩
  · -- The first entry has a window, and it starts before the latest time.
    obtain ⟨entry, isEntry⟩ := List.exists_mem_of_ne_nil entries notEmpty
    obtain ⟨window, found, _, upTo⟩ := @exists_window zone now entry (proper entry isEntry)
    have after := minimal window (isFound entry isEntry window found)
    rw [unchanged] at after
    exact absurd (after.trans upTo) (not_le.mpr notLate)
  · rw [isResult] at minimal
    refine ⟨window, congrArg Prod.snd isResult, ?_, fun entry isEntry other isOther => ?_⟩
    · obtain ⟨info, isInfo, found⟩ := List.mem_filterMap.mp isWindow
      obtain ⟨entry, isEntry, rfl⟩ := List.mem_map.mp isInfo
      obtain ⟨other, foundOther, earliest, _⟩ :=
        @exists_window zone now entry (proper entry isEntry)
      rw [found, Option.some.injEq] at foundOther
      exact ⟨entry, isEntry, foundOther ▸ earliest⟩
    · obtain ⟨own, found, earliest, _⟩ := @exists_window zone now entry (proper entry isEntry)
      exact (minimal own (isFound entry isEntry own found)).trans (earliest.start_le isOther)

end Windows

/-- Each entry's window is the first of all its windows that has not ended, and a list of
entries has the window that starts first. -/
theorem earliest_of_parse (zone now : Int) :
    (∀ entry : Periodic, entry.Proper zone → ∃ window,
      Time.parse zone now entry.info = some window ∧ entry.Earliest zone now window) ∧
    (now + 7 * 86400 * 2 < maxinteger → ∀ entries : List Periodic, entries ≠ [] →
      (∀ entry ∈ entries, entry.Proper zone) →
      ∃ window, M.parse zone now (entries.map Periodic.info) = some window ∧
        (∃ entry ∈ entries, entry.Earliest zone now window) ∧
        ∀ entry ∈ entries, ∀ other, entry.Earliest zone now other → window.1 ≤ other.1) := by
  refine ⟨fun entry proper => ?_, fun notLate entries notEmpty proper => ?_⟩
  · obtain ⟨window, found, earliest, _⟩ := @exists_window zone now entry proper
    exact ⟨window, found, earliest⟩
  · exact exists_first notEmpty proper notLate

/-- Three o'clock every day, for three hours. -/
def night : Periodic :=
  .daily ⟨none, none, none, some 3, none, none⟩ ⟨none, none, none, some 3, none, none⟩

/-- Wednesday at ten, for a day. -/
def wednesday : Periodic :=
  .weekly ⟨none, none, some 3, some 10, none, none⟩ ⟨none, none, some 1, none, none, none⟩

theorem night_proper (zone : Int) : night.Proper zone := by
  refine ⟨⟨by decide, by decide, by decide⟩, fun ts => ?_⟩
  rw [night, Periodic.duration, Periodic.period, addDuration_of_days rfl rfl]
  simp only [Option.getD_none, Option.getD_some]
  omega

theorem wednesday_proper (zone : Int) : wednesday.Proper zone := by
  refine ⟨⟨⟨by decide, by decide, by decide⟩, rfl, rfl, 3, rfl, by decide, by decide⟩,
    fun ts => ?_⟩
  rw [wednesday, Periodic.duration, Periodic.period, addDuration_of_days rfl rfl]
  simp only [Option.getD_none, Option.getD_some]
  omega

theorem earliest_of_parse_two :
    (∃ window, Time.parse 3600 1788870000 wednesday.info = some window ∧
      wednesday.Earliest 3600 1788870000 window) ∧
    ∃ window, M.parse 3600 1788870000 ([night, wednesday].map Periodic.info) = some window ∧
      (∃ entry ∈ [night, wednesday], entry.Earliest 3600 1788870000 window) ∧
      ∀ entry ∈ [night, wednesday], ∀ other, entry.Earliest 3600 1788870000 other →
        window.1 ≤ other.1 := by
  refine ⟨(earliest_of_parse 3600 1788870000).1 wednesday (wednesday_proper 3600),
    (earliest_of_parse 3600 1788870000).2 (by decide) [night, wednesday]
      (List.cons_ne_nil _ _) ?_⟩
  exact List.forall_mem_cons.mpr
    ⟨night_proper 3600, List.forall_mem_singleton.mpr (wednesday_proper 3600)⟩

end Time

end LuaServer
