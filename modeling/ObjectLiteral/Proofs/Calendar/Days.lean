import Mathlib.Tactic.IntervalCases
import ObjectLiteral.Calendar
/-!
The days of the proleptic Gregorian calendar, counted from the first of January 1970.  The count is
given by the lengths of years and months; it grows by one from each day to the next, so it numbers
the days in their order, and the date of a day number is the one valid date with that number.
-/

namespace ObjectLiteral

namespace CivilDate

/-- Every fourth year is a leap year, but of the years that end a century only every fourth. -/
def IsLeap (year : Int) : Prop :=
  year % 4 = 0 ∧ (year % 100 = 0 → year % 400 = 0)

instance (year : Int) : Decidable (IsLeap year) :=
  inferInstanceAs (Decidable (_ ∧ _))

def daysInMonth (year : Int) : Nat → Nat
  | 2 => if IsLeap year then 29 else 28
  | 4 | 6 | 9 | 11 => 30
  | _ => 31

def daysBefore (year : Int) : Nat → Nat
  | 0 | 1 => 0
  | month + 2 => daysBefore year (month + 1) + daysInMonth year (month + 1)

/-- The days from the first of January 1970 to the first of January of a year: 365 for each year,
and a day more for each leap year in between. -/
def yearStart (year : Int) : Int :=
  365 * (year - 1970) + ((year - 1) / 4 - (year - 1) / 100 + (year - 1) / 400 - 477)

/-- The days from the first of January 1970. -/
def dayNumber (d : CivilDate) : Int :=
  yearStart d.year + daysBefore d.year d.month + d.day - 1

/-- The calendar has such a day. -/
structure Valid (d : CivilDate) : Prop where
  month_pos : 0 < d.month
  month_le : d.month ≤ 12
  day_pos : 0 < d.day
  day_le : d.day ≤ daysInMonth d.year d.month

/-- The order of days by year, month and day. -/
def Before (d e : CivilDate) : Prop :=
  d.year < e.year ∨ d.year = e.year ∧ (d.month < e.month ∨ d.month = e.month ∧ d.day < e.day)

def next (d : CivilDate) : CivilDate :=
  if d.day < daysInMonth d.year d.month then ⟨d.year, d.month, d.day + 1⟩
  else if d.month < 12 then ⟨d.year, d.month + 1, 1⟩
  else ⟨d.year + 1, 1, 1⟩

theorem daysInMonth_pos (year : Int) (month : Nat) : 0 < daysInMonth year month := by
  unfold daysInMonth
  split
  · split <;> decide
  all_goals decide

theorem daysInMonth_le (year : Int) (month : Nat) : daysInMonth year month ≤ 31 := by
  unfold daysInMonth
  split
  · split <;> decide
  all_goals decide

theorem daysBefore_succ (year : Int) {month : Nat} (hmonth : 0 < month) :
    daysBefore year (month + 1) = daysBefore year month + daysInMonth year month := by
  obtain ⟨month, rfl⟩ := Nat.exists_eq_succ_of_ne_zero hmonth.ne'
  rfl

/-- A year has as many days as its months. -/
theorem yearStart_succ (year : Int) :
    yearStart (year + 1) = yearStart year + daysBefore year 12 + daysInMonth year 12 := by
  have hlengths : daysBefore year 12 + daysInMonth year 12 = if IsLeap year then 366 else 365 := by
    simp only [daysBefore, daysInMonth]
    split <;> rfl
  rw [add_assoc, ← Nat.cast_add, hlengths]
  unfold yearStart
  by_cases hleap : IsLeap year
  · rw [if_pos hleap]
    unfold IsLeap at hleap
    omega
  · rw [if_neg hleap]
    unfold IsLeap at hleap
    omega

theorem valid_next {d : CivilDate} (hd : d.Valid) : d.next.Valid := by
  unfold next
  split
  · exact ⟨hd.month_pos, hd.month_le, Nat.succ_pos _, ‹_›⟩
  · split
    · exact ⟨Nat.succ_pos _, ‹_›, Nat.one_pos, daysInMonth_pos _ _⟩
    · exact ⟨Nat.one_pos, (by decide : 1 ≤ 12), Nat.one_pos, daysInMonth_pos _ _⟩

/-- The count goes up by one from each day to the next. -/
theorem dayNumber_next {d : CivilDate} (hd : d.Valid) : d.next.dayNumber = d.dayNumber + 1 := by
  have hlast : ¬ d.day < daysInMonth d.year d.month → d.day = daysInMonth d.year d.month :=
    fun hday => Nat.le_antisymm hd.day_le (Nat.le_of_not_lt hday)
  unfold next
  split
  · simp only [dayNumber]
    omega
  · rename_i hday
    split
    · simp only [dayNumber, daysBefore_succ d.year hd.month_pos]
      have hend := hlast hday
      omega
    · have hmonth : d.month = 12 := Nat.le_antisymm hd.month_le (by omega)
      have hend := hlast hday
      rw [hmonth] at hend
      simp only [dayNumber, yearStart_succ, hmonth, daysBefore]
      omega

/-- The months before another one lie before it with all their days. -/
theorem daysBefore_le (year : Int) {month month' : Nat} (hpos : 0 < month)
    (hlt : month < month') :
    daysBefore year month + daysInMonth year month ≤ daysBefore year month' := by
  induction month' with
  | zero => contradiction
  | succ month' ih =>
      rw [daysBefore_succ year (by omega)]
      rcases Nat.lt_or_eq_of_le (Nat.le_of_lt_succ hlt) with hbelow | rfl
      · exact (ih hbelow).trans (Nat.le_add_right _ _)
      · exact Nat.le_refl _

/-- The years before another one lie before it with all their days. -/
theorem yearStart_le {year year' : Int} (hlt : year < year') :
    yearStart (year + 1) ≤ yearStart year' := by
  unfold yearStart
  omega

/-- Valid days are numbered in the order of their years, months and days. -/
theorem Before.dayNumber_lt {d e : CivilDate} (hbefore : d.Before e) (hd : d.Valid)
    (he : e.Valid) : d.dayNumber < e.dayNumber := by
  have hday := hd.day_le
  have hpos := he.day_pos
  simp only [dayNumber]
  rcases hbefore with hyear | ⟨hyear, hmonth | ⟨hmonth, hearlier⟩⟩
  · have hnext := yearStart_le hyear
    have hlast := daysBefore_le d.year hd.month_pos (Nat.lt_succ_of_le hd.month_le)
    have hlength := yearStart_succ d.year
    rw [daysBefore_succ _ (by decide)] at hlast
    omega
  · have hlast := daysBefore_le d.year hd.month_pos hmonth
    rw [← hyear]
    omega
  · rw [← hyear, ← hmonth]
    omega

theorem before_or_eq_or_before (d e : CivilDate) : d.Before e ∨ d = e ∨ e.Before d := by
  by_cases hsame : d = e
  · exact Or.inr (Or.inl hsame)
  · have hdiffers : ¬ (d.year = e.year ∧ d.month = e.month ∧ d.day = e.day) := by
      obtain ⟨year, month, day⟩ := d
      obtain ⟨year', month', day'⟩ := e
      rintro ⟨rfl, rfl, rfl⟩
      exact hsame rfl
    unfold Before
    omega

theorem dayNumber_lt_iff {d e : CivilDate} (hd : d.Valid) (he : e.Valid) :
    d.dayNumber < e.dayNumber ↔ d.Before e := by
  refine ⟨fun hlt => ?_, fun hbefore => hbefore.dayNumber_lt hd he⟩
  rcases d.before_or_eq_or_before e with hbefore | rfl | hafter
  · exact hbefore
  · exact absurd hlt (lt_irrefl _)
  · exact absurd (hafter.dayNumber_lt he hd) hlt.asymm

/-- No two valid days have the same number. -/
theorem eq_of_dayNumber_eq {d e : CivilDate} (hd : d.Valid) (he : e.Valid)
    (hsame : d.dayNumber = e.dayNumber) : d = e := by
  rcases d.before_or_eq_or_before e with hbefore | heq | hafter
  · exact absurd hsame (hbefore.dayNumber_lt hd he).ne
  · exact heq
  · exact absurd hsame (hafter.dayNumber_lt he hd).ne'

/-- The days from the first of January 1970 to the first of March of a year. -/
def marchStart (year : Int) : Int :=
  365 * year + year / 4 - year / 100 + year / 400 - epochOffset

theorem marchStart_eq (year : Int) : marchStart year = yearStart year + daysBefore year 3 := by
  have hlengths : daysBefore year 3 = if IsLeap year then 60 else 59 := by
    simp only [daysBefore, daysInMonth]
    split <;> rfl
  rw [hlengths]
  unfold marchStart yearStart epochOffset
  by_cases hleap : IsLeap year
  · rw [if_pos hleap]
    unfold IsLeap at hleap
    omega
  · rw [if_neg hleap]
    unfold IsLeap at hleap
    omega

theorem yearStart_succ_eq (year : Int) : yearStart (year + 1) = marchStart year + 306 := by
  unfold marchStart yearStart epochOffset
  omega

/-- The day that comes so many days after the first of March of a year. -/
def ofMarch (year : Int) (days : Nat) : CivilDate :=
  let month := (5 * days + 2) / 153
  ⟨if month < 10 then year else year + 1, if month < 10 then month + 3 else month - 9,
    days - (153 * month + 2) / 5 + 1⟩

/-- From March to December the months begin as a line of slope 153 / 5 says. -/
theorem daysBefore_march (year : Int) {month : Nat} (hmonth : month < 10) :
    daysBefore year (month + 3) = daysBefore year 3 + (153 * month + 2) / 5 ∧
      daysInMonth year (month + 3) = (153 * (month + 1) + 2) / 5 - (153 * month + 2) / 5 := by
  interval_cases month <;> exact ⟨rfl, rfl⟩

/-- A year from March to February has its leap day at its end. -/
theorem valid_ofMarch {year : Int} {days : Nat} (hdays : days ≤ 365)
    (hleap : days = 365 → IsLeap (year + 1)) :
    (ofMarch year days).Valid ∧ (ofMarch year days).dayNumber = marchStart year + days := by
  have hlt : (5 * days + 2) / 153 < 12 := by omega
  have hbounds := Nat.div_add_mod (5 * days + 2) 153
  have hrest := Nat.mod_lt (5 * days + 2) (by decide : 0 < 153)
  have hstart := marchStart_eq year
  have hnext := yearStart_succ_eq year
  unfold ofMarch
  generalize (5 * days + 2) / 153 = month at *
  by_cases hmonth : month < 10
  · obtain ⟨hbefore, hlength⟩ := daysBefore_march year hmonth
    simp only [if_pos hmonth]
    refine ⟨⟨Nat.succ_pos _, ?_, Nat.succ_pos _, ?_⟩, ?_⟩
    · change month + 3 ≤ 12
      omega
    · change days - (153 * month + 2) / 5 + 1 ≤ daysInMonth year (month + 3)
      omega
    · simp only [dayNumber]
      omega
  · simp only [if_neg hmonth]
    obtain rfl | rfl : month = 10 ∨ month = 11 := by omega
    · refine ⟨⟨Nat.one_pos, (by decide : 1 ≤ 12), Nat.succ_pos _, ?_⟩, ?_⟩
      · change days - 306 + 1 ≤ 31
        omega
      · have hbefore : daysBefore (year + 1) (10 - 9) = 0 := rfl
        simp only [dayNumber, hbefore]
        omega
    · refine ⟨⟨Nat.succ_pos _, (by decide : 2 ≤ 12), Nat.succ_pos _, ?_⟩, ?_⟩
      · change days - 337 + 1 ≤ if IsLeap (year + 1) then 29 else 28
        split
        · omega
        · rename_i hcommon
          have hshort : days ≠ 365 := fun hlast => hcommon (hleap hlast)
          omega
      · have hbefore : daysBefore (year + 1) (11 - 9) = 31 := rfl
        simp only [dayNumber, hbefore]
        omega

/-- A cycle of 400 years splits into centuries, groups of four years and years.  Its last century and
the last year of a group may be a day longer, and are only where the year ends with a leap day. -/
theorem exists_split {days : Nat} (hdays : days < 146097) :
    ∃ century olympiad year rest, century = min 3 (days / 36524) ∧
      olympiad = (days - century * 36524) / 1461 ∧
      year = min 3 ((days - century * 36524 - olympiad * 1461) / 365) ∧
      rest = days - century * 36524 - olympiad * 1461 - year * 365 ∧
      days = century * 36524 + olympiad * 1461 + year * 365 + rest ∧
      century ≤ 3 ∧ olympiad ≤ 24 ∧ year ≤ 3 ∧ rest ≤ 365 ∧
      (rest = 365 → year = 3 ∧ (olympiad = 24 → century = 3)) := by
  obtain ⟨century, hcentury⟩ : ∃ century, century = min 3 (days / 36524) := ⟨_, rfl⟩
  obtain ⟨days₁, hdays₁⟩ : ∃ days₁, days₁ = days - century * 36524 := ⟨_, rfl⟩
  obtain ⟨olympiad, holympiad⟩ : ∃ olympiad, olympiad = days₁ / 1461 := ⟨_, rfl⟩
  obtain ⟨days₂, hdays₂⟩ : ∃ days₂, days₂ = days₁ - olympiad * 1461 := ⟨_, rfl⟩
  obtain ⟨year, hyear⟩ : ∃ year, year = min 3 (days₂ / 365) := ⟨_, rfl⟩
  obtain ⟨rest, hrest⟩ : ∃ rest, rest = days₂ - year * 365 := ⟨_, rfl⟩
  have hdays₁_le : days₁ ≤ 36524 ∧ (days₁ = 36524 → century = 3) := by omega
  have hdays₂_le : days₂ ≤ 1460 ∧ (days₂ = 1460 → olympiad = 24 → days₁ = 36524) := by omega
  have hrest_le : rest ≤ 365 ∧ (rest = 365 → year = 3 ∧ days₂ = 1460) := by omega
  have htotal : days = century * 36524 + olympiad * 1461 + year * 365 + rest := by omega
  refine ⟨century, olympiad, year, rest, hcentury, hdays₁ ▸ holympiad, ?_, ?_, htotal, ?_⟩
  · rw [hyear, hdays₂, hdays₁]
  · rw [hrest, hdays₂, hdays₁]
  · have hcentury_le : century ≤ 3 := hcentury ▸ Nat.min_le_left _ _
    have hyear_le : year ≤ 3 := hyear ▸ Nat.min_le_left _ _
    have holympiad_le : olympiad ≤ 24 := by omega
    refine ⟨hcentury_le, holympiad_le, hyear_le, hrest_le.1, fun h365 => ?_⟩
    exact ⟨(hrest_le.2 h365).1, fun h24 => hdays₁_le.2 (hdays₂_le.2 (hrest_le.2 h365).2 h24)⟩

theorem marchStart_split (cycle : Int) {century olympiad year : Nat} (hcentury : century ≤ 3)
    (holympiad : olympiad ≤ 24) (hyear : year ≤ 3) :
    marchStart (cycle * 400 + (century * 100 + olympiad * 4 + year : Nat)) =
      cycle * 146097 + century * 36524 + olympiad * 1461 + year * 365 - epochOffset := by
  have hfours : (cycle * 400 + (century * 100 + olympiad * 4 + year : Nat)) / 4 =
      cycle * 100 + century * 25 + olympiad := by omega
  have hcenturies : (cycle * 400 + (century * 100 + olympiad * 4 + year : Nat)) / 100 =
      cycle * 4 + century := by omega
  have hcycles : (cycle * 400 + (century * 100 + olympiad * 4 + year : Nat)) / 400 = cycle := by
    omega
  rw [marchStart, hfours, hcenturies, hcycles]
  omega

/-- The date of a day number, by its year from March on and its day in that year. -/
theorem exists_ofMarch (n : Int) :
    ∃ (year : Int) (days : Nat), ofDayNumber n = ofMarch year days ∧ n = marchStart year + days ∧
      days ≤ 365 ∧ (days = 365 → IsLeap (year + 1)) := by
  obtain ⟨cycle, hcycle⟩ : ∃ cycle, cycle = (n + epochOffset) / 146097 := ⟨_, rfl⟩
  obtain ⟨days, hdays⟩ : ∃ days, days = ((n + epochOffset) % 146097).toNat := ⟨_, rfl⟩
  have hsplit : n + epochOffset = cycle * 146097 + days ∧ days < 146097 := by omega
  obtain ⟨century, olympiad, year, rest, hcentury, holympiad, hyear, hrest, htotal, hcentury_le,
    holympiad_le, hyear_le, hrest_le, hlast⟩ := exists_split hsplit.2
  have hdate : ofDayNumber n =
      ⟨cycle * 400 + (century * 100 + olympiad * 4 + year +
          if (5 * rest + 2) / 153 < 10 then 0 else 1 : Nat),
        if (5 * rest + 2) / 153 < 10 then (5 * rest + 2) / 153 + 3 else (5 * rest + 2) / 153 - 9,
        rest - (153 * ((5 * rest + 2) / 153) + 2) / 5 + 1⟩ := by
    subst hrest hyear holympiad hcentury hdays hcycle
    rfl
  refine ⟨cycle * 400 + (century * 100 + olympiad * 4 + year : Nat), rest, ?_, ?_, hrest_le, ?_⟩
  · rw [hdate, ofMarch]
    simp only [mk.injEq, and_true]
    split
    · rfl
    · omega
  · rw [marchStart_split cycle hcentury_le holympiad_le hyear_le]
    omega
  · intro h365
    obtain ⟨rfl, hfourth⟩ := hlast h365
    refine ⟨by omega, fun hend => ?_⟩
    have hthree := hfourth (by omega)
    omega

theorem valid_ofDayNumber (n : Int) : (ofDayNumber n).Valid := by
  obtain ⟨year, days, heq, -, hdays, hleap⟩ := exists_ofMarch n
  rw [heq]
  exact (valid_ofMarch hdays hleap).1

theorem dayNumber_ofDayNumber (n : Int) : (ofDayNumber n).dayNumber = n := by
  obtain ⟨year, days, heq, hn, hdays, hleap⟩ := exists_ofMarch n
  rw [heq, (valid_ofMarch hdays hleap).2, hn]

/-- The date of a day number is the one valid date with that number. -/
theorem ofDayNumber_eq_iff {n : Int} {d : CivilDate} (hd : d.Valid) :
    ofDayNumber n = d ↔ d.dayNumber = n := by
  constructor
  · rintro rfl
    exact dayNumber_ofDayNumber n
  · rintro rfl
    exact eq_of_dayNumber_eq (valid_ofDayNumber _) hd (dayNumber_ofDayNumber _)

/-- The dates of day numbers are those that one comes to from the first of January 1970, going from
each day to the next. -/
theorem ofDayNumber_from_epoch :
    ofDayNumber 0 = ⟨1970, 1, 1⟩ ∧ ∀ n, ofDayNumber (n + 1) = (ofDayNumber n).next := by
  have hepoch : Valid ⟨1970, 1, 1⟩ := ⟨by decide, by decide, by decide, by decide⟩
  refine ⟨(ofDayNumber_eq_iff hepoch).mpr (by decide), fun n => ?_⟩
  have hvalid := valid_ofDayNumber n
  rw [ofDayNumber_eq_iff (valid_next hvalid), dayNumber_next hvalid, dayNumber_ofDayNumber]

end CivilDate

end ObjectLiteral
