import LuaServer.TimeWindows

/-!
# Dates that some months do not have

A window that starts again every month or every year is tried at three dates, and one table
serves for all of them.  `os.time` has rewritten it in between: where the month is shorter
than the configured day, the table goes on from the date it was normalised to.
-/

namespace LuaServer

namespace Time

open CivilDates

section Loop

variable {zone now : Int} {duration : TimeTable} {shift : DateTable → DateTable}

/-- The starts that the loop of the recurrences tries. -/
def triedStarts (zone now : Int) (duration : TimeTable) (shift : DateTable → DateTable) :
    Nat → DateTable → List Int
  | 0, _ => []
  | rounds + 1, timeTb =>
      let (startTs, timeTb) := osTime zone (shift timeTb)
      let endTs := (addDuration zone startTs duration).1
      startTs ::
        if now < endTs then [] else triedStarts zone now duration shift rounds timeTb

/-- The loop tries the starts one after another, and finds the first whose window has not
ended. -/
structure TriesInOrder (zone now : Int) (duration : TimeTable) (starts tried : List Int)
    (found : Option (Int × Int)) : Prop where
  tried : tried <+: starts
  found : found = starts.findSome? (openWindow zone now duration)

/-- Each start follows from the one before, as far as they are tried. -/
def Follow (zone now : Int) (duration : TimeTable) (shift : DateTable → DateTable) :
    List Int → Prop
  | startTs :: nextTs :: starts =>
      now < (addDuration zone startTs duration).1 ∨
        nextStart zone shift startTs = nextTs ∧
          Follow zone now duration shift (nextTs :: starts)
  | _ => True

theorem triedStarts_succ (rounds : Nat) (timeTb : DateTable) :
    triedStarts zone now duration shift (rounds + 1) timeTb =
      (osTime zone (shift timeTb)).1 ::
        if now < (addDuration zone (osTime zone (shift timeTb)).1 duration).1 then []
        else triedStarts zone now duration shift rounds (osTime zone (shift timeTb)).2 :=
  rfl

theorem tryStarts_succ (rounds : Nat) (timeTb : DateTable) :
    tryStarts zone now duration shift (rounds + 1) timeTb =
      if now < (addDuration zone (osTime zone (shift timeTb)).1 duration).1 then
        some ((osTime zone (shift timeTb)).1,
          (addDuration zone (osTime zone (shift timeTb)).1 duration).1)
      else tryStarts zone now duration shift rounds (osTime zone (shift timeTb)).2 :=
  rfl

theorem triesInOrder_iff (starts : List Int) (startTs : Int) (timeTb : DateTable)
    (isStart : (osTime zone (shift timeTb)).1 = startTs) :
    TriesInOrder zone now duration (startTs :: starts)
        (triedStarts zone now duration shift (starts.length + 1) timeTb)
        (tryStarts zone now duration shift (starts.length + 1) timeTb) ↔
      Follow zone now duration shift (startTs :: starts) := by
  induction starts generalizing startTs timeTb with
  | nil =>
      subst isStart
      have alone : triedStarts zone now duration shift 1 timeTb =
          [(osTime zone (shift timeTb)).1] := by
        rw [triedStarts_succ, triedStarts, ite_self]
      exact iff_of_true
        ⟨alone ▸ List.prefix_refl _, tryStarts_eq duration shift 1 timeTb⟩ trivial
  | cons nextTs starts ih =>
      subst isStart
      have rest := ih nextTs (osTime zone (shift timeTb)).2
      rw [Follow, List.length_cons, triedStarts_succ, tryStarts_succ]
      by_cases isOpen : now < (addDuration zone (osTime zone (shift timeTb)).1 duration).1
      · refine iff_of_true ⟨?_, ?_⟩ (Or.inl isOpen)
        · rw [if_pos isOpen]
          exact (List.prefix_cons_inj _).mpr List.nil_prefix
        · rw [List.findSome?_cons, openWindow, if_pos isOpen, if_pos isOpen]
      · rw [or_iff_right isOpen, if_neg isOpen, if_neg isOpen]
        constructor
        · rintro ⟨tried, found⟩
          have triedRest := (List.prefix_cons_inj _).mp tried
          rw [List.findSome?_cons, openWindow, if_neg isOpen] at found
          have isNext : nextStart zone shift (osTime zone (shift timeTb)).1 = nextTs := by
            rw [triedStarts_succ] at triedRest
            exact (List.cons_prefix_cons.mp triedRest).1
          exact ⟨isNext, (rest isNext).mp ⟨triedRest, found⟩⟩
        · rintro ⟨isNext, follow⟩
          obtain ⟨triedRest, found⟩ := (rest isNext).mpr follow
          refine ⟨(List.prefix_cons_inj _).mpr triedRest, ?_⟩
          rw [List.findSome?_cons, openWindow, if_neg isOpen]
          exact found

end Loop

/-- The fields of a table are those of a date, in any month, and of a time of the day. -/
structure TimeTable.IsDate (tb : TimeTable) : Prop where
  month : 1 ≤ tb.month.getD 1 ∧ tb.month.getD 1 ≤ 12
  day : 1 ≤ tb.day.getD 1 ∧ tb.day.getD 1 ≤ 31
  time : tb.IsTime

section Dates

variable (zone now : Int) (tb : TimeTable)

/-- The day and time of a table in a month that is counted through all years. -/
def occurrence (month : Int) : Int :=
  (osTime zone
    { year := month / 12
      month := month % 12 + 1
      day := tb.day.getD 1
      hour := tb.hour.getD 0
      min := tb.min.getD 0
      sec := tb.sec.getD 0
      wday := 1 }).1

/-- The month of now. -/
def thisMonth : Int :=
  12 * (osDate zone now).year + (osDate zone now).month - 1

/-- The month of the table in the year of now. -/
def monthInThisYear : Int :=
  12 * (osDate zone now).year + tb.month.getD 1 - 1

/-- The table before the loop of `parse_monthly`. -/
def monthlyTb : DateTable :=
  { osDate zone now with
    month := (osDate zone now).month - 2
    day := tb.day.getD 1, hour := tb.hour.getD 0, min := tb.min.getD 0, sec := tb.sec.getD 0 }

/-- The table before the loop of `parse_yearly`. -/
def yearlyTb : DateTable :=
  { osDate zone now with
    year := (osDate zone now).year - 2
    month := tb.month.getD 1
    day := tb.day.getD 1, hour := tb.hour.getD 0, min := tb.min.getD 0, sec := tb.sec.getD 0 }

end Dates

section Months

variable {zone now : Int} {tb : TimeTable}

theorem parseMonthly_eq (duration : TimeTable) :
    parseMonthly zone now tb duration =
      tryStarts zone now duration (fun tb => { tb with month := tb.month + 1 }) 3
        (monthlyTb zone now tb) :=
  rfl

theorem parseYearly_eq (duration : TimeTable) :
    parseYearly zone now tb duration =
      tryStarts zone now duration (fun tb => { tb with year := tb.year + 1 }) 3
        (yearlyTb zone now tb) :=
  rfl

theorem occurrence_eq (month : Int) :
    occurrence zone tb month =
      86400 * (monthStart month + tb.day.getD 1 - 1 - epoch) + tb.seconds - zone := by
  have sameMonth : 12 * (month / 12) + (month % 12 + 1) - 1 = month := by omega
  simp only [occurrence, osTime, sameMonth, TimeTable.seconds]
  omega

/-- A shift by months moves as far as the first day of the month that the date is in. -/
theorem nextStart_months (ts months : Int) :
    nextStart zone (fun tb => { tb with month := tb.month + months }) ts =
      ts + 86400 * (monthStart (monthOf ((ts + zone) / 86400 + epoch) + months) -
        monthStart (monthOf ((ts + zone) / 86400 + epoch))) := by
  have sameMonth : ∀ month : Int, 12 * (month / 12) + (month % 12 + 1 + months) - 1 =
      month + months := by omega
  simp only [nextStart, osTime, osDate, sameMonth]
  omega

/-- The month that an occurrence is in. -/
theorem monthOf_occurrence (isDate : tb.IsDate) (month : Int) :
    monthOf ((occurrence zone tb month + zone) / 86400 + epoch) =
      if tb.day.getD 1 ≤ monthLength month then month else month + 1 := by
  have day := isDate.day
  obtain ⟨nonneg, below⟩ := seconds_range isDate.time
  have isDay : (occurrence zone tb month + zone) / 86400 + epoch =
      monthStart month + tb.day.getD 1 - 1 := by
    rw [occurrence_eq]
    omega
  have length := (monthLength_bounds (month + 1)).1
  have thisLength := (monthLength_bounds month).1
  rw [isDay]
  by_cases inMonth : tb.day.getD 1 ≤ monthLength month
  · rw [if_pos inMonth]
    refine monthOf_eq (by omega) ?_
    rw [monthStart_succ]
    omega
  · rw [if_neg inMonth]
    refine monthOf_eq ?_ ?_
    · rw [monthStart_succ]
      omega
    · rw [monthStart_succ, monthStart_succ]
      omega

/-- An occurrence leads to the one so many months later when its month has the day, or when
the two months are equally long. -/
theorem nextStart_occurrence (isDate : tb.IsDate) (month months : Int) :
    nextStart zone (fun tb => { tb with month := tb.month + months })
        (occurrence zone tb month) = occurrence zone tb (month + months) ↔
      tb.day.getD 1 ≤ monthLength month ∨ monthLength month = monthLength (month + months) := by
  rw [nextStart_months, monthOf_occurrence isDate, occurrence_eq, occurrence_eq]
  by_cases inMonth : tb.day.getD 1 ≤ monthLength month
  · rw [if_pos inMonth]
    refine iff_of_true ?_ (Or.inl inMonth)
    omega
  · rw [if_neg inMonth, or_iff_right inMonth, add_right_comm, monthStart_succ, monthStart_succ]
    omega

/-- A shift by a year is one by twelve months. -/
theorem nextStart_year :
    nextStart zone (fun tb => { tb with year := tb.year + 1 }) =
      nextStart zone (fun tb => { tb with month := tb.month + 12 }) := by
  have sameMonth : ∀ year month : Int, 12 * (year + 1) + month - 1 =
      12 * year + (month + 12) - 1 := by omega
  funext ts
  simp only [nextStart, osTime, sameMonth]

theorem lengthIn_neighbours : ∀ leap nextLeap : Bool, ∀ month < 12,
    lengthIn leap month = lengthIn nextLeap ((month + 1) % 12) → lengthIn leap month = 31 := by
  decide

/-- Neighbouring months of one length have all days. -/
theorem monthLength_neighbours {month : Int}
    (same : monthLength month = monthLength (month + 1)) : monthLength month = 31 := by
  have next : ((month + 1) % 12).toNat = ((month % 12).toNat + 1) % 12 := by omega
  rw [monthLength, monthLength, next] at same
  exact lengthIn_neighbours _ _ _ (by omega) same

theorem nextStart_month (isDate : tb.IsDate) (month : Int) :
    nextStart zone (fun tb => { tb with month := tb.month + 1 }) (occurrence zone tb month) =
      occurrence zone tb (month + 1) ↔ tb.day.getD 1 ≤ monthLength month := by
  refine (nextStart_occurrence isDate month 1).trans (or_iff_left_of_imp fun same => ?_)
  rw [monthLength_neighbours same]
  exact isDate.day.2

end Months

section Recurrences

variable (zone now : Int) (tb duration : TimeTable)

/-- `parse_monthly` tries the date of the table in the month before, in this one and in the
next, and finds the first of them whose window has not ended. -/
def MonthlyInOrder : Prop :=
  TriesInOrder zone now duration
    [occurrence zone tb (thisMonth zone now - 1), occurrence zone tb (thisMonth zone now),
      occurrence zone tb (thisMonth zone now + 1)]
    (triedStarts zone now duration (fun tb => { tb with month := tb.month + 1 }) 3
      (monthlyTb zone now tb))
    (parseMonthly zone now tb duration)

/-- `parse_yearly` does so with the year before, this one and the next. -/
def YearlyInOrder : Prop :=
  TriesInOrder zone now duration
    [occurrence zone tb (monthInThisYear zone now tb - 12),
      occurrence zone tb (monthInThisYear zone now tb),
      occurrence zone tb (monthInThisYear zone now tb + 12)]
    (triedStarts zone now duration (fun tb => { tb with year := tb.year + 1 }) 3
      (yearlyTb zone now tb))
    (parseYearly zone now tb duration)

/-- The month has the day of the table, or is as long as the month that follows it among the
tried ones. -/
def LeadsTo (month next : Int) : Prop :=
  tb.day.getD 1 ≤ monthLength month ∨ monthLength month = monthLength next

/-- The window of the table in a month has not ended. -/
def OpenIn (month : Int) : Prop :=
  now < (addDuration zone (occurrence zone tb month) duration).1

variable {zone now tb duration}

theorem monthlyInOrder_iff (isDate : tb.IsDate) :
    MonthlyInOrder zone now tb duration ↔
      OpenIn zone now tb duration (thisMonth zone now - 1) ∨
        tb.day.getD 1 ≤ monthLength (thisMonth zone now - 1) ∧
          (OpenIn zone now tb duration (thisMonth zone now) ∨
            tb.day.getD 1 ≤ monthLength (thisMonth zone now)) := by
  have first := @nextStart_month zone tb isDate (thisMonth zone now - 1)
  have second := @nextStart_month zone tb isDate (thisMonth zone now)
  have firstMonth : 12 * (osDate zone now).year + ((osDate zone now).month - 2 + 1) - 1 =
      thisMonth zone now - 1 := by
    rw [thisMonth]
    omega
  rw [sub_add_cancel] at first
  rw [MonthlyInOrder, parseMonthly_eq, ← first, ← second]
  refine (triesInOrder_iff [_, _] _ _ ?_).trans ?_
  · rw [occurrence_eq]
    simp only [osTime, monthlyTb, firstMonth, TimeTable.seconds]
    omega
  · simp only [Follow, OpenIn, and_true]

theorem yearlyInOrder_iff (isDate : tb.IsDate) :
    YearlyInOrder zone now tb duration ↔
      OpenIn zone now tb duration (monthInThisYear zone now tb - 12) ∨
        LeadsTo tb (monthInThisYear zone now tb - 12) (monthInThisYear zone now tb) ∧
          (OpenIn zone now tb duration (monthInThisYear zone now tb) ∨
            LeadsTo tb (monthInThisYear zone now tb) (monthInThisYear zone now tb + 12)) := by
  have first := @nextStart_occurrence zone tb isDate (monthInThisYear zone now tb - 12) 12
  have second := @nextStart_occurrence zone tb isDate (monthInThisYear zone now tb) 12
  have firstMonth : 12 * ((osDate zone now).year - 2 + 1) + tb.month.getD 1 - 1 =
      monthInThisYear zone now tb - 12 := by
    rw [monthInThisYear]
    omega
  rw [sub_add_cancel] at first
  rw [YearlyInOrder, parseYearly_eq, LeadsTo, LeadsTo, ← first, ← second, ← nextStart_year]
  refine (triesInOrder_iff [_, _] _ _ ?_).trans ?_
  · rw [occurrence_eq]
    simp only [osTime, yearlyTb, firstMonth, TimeTable.seconds]
    omega
  · simp only [Follow, OpenIn, and_true]

end Recurrences

/-- The three dates are tried in order exactly when every one before a date that is tried has
its day, or, from year to year, is in a month as long as that of the next. -/
theorem inOrder_iff (zone now : Int) (tb duration : TimeTable) (isDate : tb.IsDate) :
    (MonthlyInOrder zone now tb duration ↔
      OpenIn zone now tb duration (thisMonth zone now - 1) ∨
        tb.day.getD 1 ≤ monthLength (thisMonth zone now - 1) ∧
          (OpenIn zone now tb duration (thisMonth zone now) ∨
            tb.day.getD 1 ≤ monthLength (thisMonth zone now))) ∧
    (YearlyInOrder zone now tb duration ↔
      OpenIn zone now tb duration (monthInThisYear zone now tb - 12) ∨
        LeadsTo tb (monthInThisYear zone now tb - 12) (monthInThisYear zone now tb) ∧
          (OpenIn zone now tb duration (monthInThisYear zone now tb) ∨
            LeadsTo tb (monthInThisYear zone now tb) (monthInThisYear zone now tb + 12))) :=
  ⟨monthlyInOrder_iff isDate, yearlyInOrder_iff isDate⟩

/-- The leap day at noon. -/
def leapDay : TimeTable :=
  ⟨none, some 2, some 29, some 12, none, none⟩

def oneDay : TimeTable :=
  ⟨none, none, some 1, none, none, none⟩

theorem inOrder_iff_leapDay :
    MonthlyInOrder 0 1835438400 leapDay oneDay ∧ ¬ YearlyInOrder 0 1835438400 leapDay oneDay := by
  have isDate : leapDay.IsDate := ⟨by decide, by decide, by decide, by decide, by decide⟩
  obtain ⟨monthly, yearly⟩ := inOrder_iff 0 1835438400 leapDay oneDay isDate
  rw [monthly, yearly]
  simp only [OpenIn, LeadsTo]
  decide

/-- In the middle of May the window of the 31st is looked for on the first of June, because
April has ended before its 31st day; the leap day of 2028 comes on the first of March. -/
theorem not_inOrder_may :
    ¬ MonthlyInOrder 0 1778803200 ⟨none, none, some 31, none, none, none⟩ oneDay ∧
      ¬ YearlyInOrder 0 1835438400 ⟨none, some 2, some 29, none, none, none⟩ oneDay := by
  constructor
  · rintro ⟨_, found⟩
    exact absurd found (by decide)
  · rintro ⟨_, found⟩
    exact absurd found (by decide)

end Time

end LuaServer
