import ObjectLiteral.Proofs.Calendar.Days
import ObjectLiteral.Proofs.Rendering.Depth
import ObjectLiteral.Proofs.Text.Fields
/-!
Texts of instants.  A text is a row of fields that shows a date and a time of day, so it can be read
in one way only, and what is read is the instant to the millisecond.
-/

namespace ObjectLiteral

open Numeral (IsField IsRow isField_padded)

/-- A day and a time of the day, to the millisecond. -/
@[ext]
structure CivilTime where
  date : CivilDate
  hour : Nat
  minute : Nat
  second : Nat
  millisecond : Nat

namespace CivilTime

/-- The calendar has such a day, and the day such a time.  The second 60 is that of a leap second. -/
structure Valid (c : CivilTime) : Prop where
  date : c.date.Valid
  hour : c.hour < 24
  minute : c.minute < 60
  second : c.second ≤ 60
  millisecond : c.millisecond < 1000

def minuteStart (c : CivilTime) : Int :=
  c.date.dayNumber * 86400 + c.hour * 3600 + c.minute * 60

/-- The milliseconds from the beginning of 1970. -/
def toMillis (c : CivilTime) : Int :=
  (c.minuteStart + c.second) * 1000 + c.millisecond

def numbers (c : CivilTime) : List Nat :=
  [c.date.year.natAbs, c.date.month, c.date.day, c.hour, c.minute, c.second, c.millisecond]

/-- The widths of the fields and the marks behind them. -/
def shape (yearWidth : Nat) : List (Nat × Char) :=
  [(yearWidth, '-'), (2, '-'), (2, 'T'), (2, ':'), (2, ':'), (2, '.'), (3, 'Z')]

/-- `c.Written cs`: `cs` shows the time `c`.  The year has four digits if it is from 0 to 9999, and a
sign and six digits otherwise. -/
inductive Written (c : CivilTime) : List Char → Prop
  | plain {cs : List Char} (hmin : 0 ≤ c.date.year) (hmax : c.date.year ≤ 9999)
      (hrow : IsRow (shape 4) c.numbers cs) : Written c cs
  | later {cs : List Char} (hyear : 9999 < c.date.year) (hrow : IsRow (shape 6) c.numbers cs) :
      Written c ('+' :: cs)
  | earlier {cs : List Char} (hyear : c.date.year < 0) (hrow : IsRow (shape 6) c.numbers cs) :
      Written c ('-' :: cs)

theorem eq_of_numbers_eq {c c' : CivilTime} (hnumbers : c.numbers = c'.numbers)
    (hsign : 0 ≤ c.date.year ↔ 0 ≤ c'.date.year) : c = c' := by
  obtain ⟨⟨year, month, day⟩, hour, minute, second, millisecond⟩ := c
  obtain ⟨⟨year', month', day'⟩, hour', minute', second', millisecond'⟩ := c'
  simp only [numbers, List.cons.injEq, and_true] at hnumbers hsign
  obtain ⟨hyear, rfl, rfl, rfl, rfl, rfl, rfl⟩ := hnumbers
  obtain rfl : year = year' := by omega
  rfl

/-- A text shows one time only. -/
theorem Written.eq {c c' : CivilTime} {cs : List Char} (hc : c.Written cs) (hc' : c'.Written cs) :
    c = c' := by
  have hunsigned : ∀ {d : CivilTime} {ds : List Char} {mark : Char}, mark.isDigit = false →
      ¬ IsRow (shape 4) d.numbers (mark :: ds) := by
    intro d ds mark hmark hrow
    exact hrow.head?_ne (by decide) hmark rfl
  cases hc with
  | plain hmin hmax hrow =>
      cases hc' with
      | plain hmin' hmax' hrow' =>
          exact eq_of_numbers_eq (hrow.numbers_eq hrow') (iff_of_true hmin hmin')
      | later | earlier => exact absurd hrow (hunsigned rfl)
  | later hyear hrow =>
      cases hc' with
      | plain _ _ hrow' => exact absurd hrow' (hunsigned rfl)
      | later hyear' hrow' => exact eq_of_numbers_eq (hrow.numbers_eq hrow') (by omega)
  | earlier hyear hrow =>
      cases hc' with
      | plain _ _ hrow' => exact absurd hrow' (hunsigned rfl)
      | earlier hyear' hrow' => exact eq_of_numbers_eq (hrow.numbers_eq hrow') (by omega)

/-- Up to leap seconds, times in the years from 0 on are ordered as their numbers. -/
theorem numbers_lt_iff {c c' : CivilTime} (hc : c.Valid) (hc' : c'.Valid) (hsecond : c.second < 60)
    (hsecond' : c'.second < 60) (hyear : 0 ≤ c.date.year) (hyear' : 0 ≤ c'.date.year) :
    c.numbers < c'.numbers ↔ c.toMillis < c'.toMillis := by
  have hdates := CivilDate.dayNumber_lt_iff hc.date hc'.date
  have hsame : c.date.dayNumber = c'.date.dayNumber ↔
      c.date.year = c'.date.year ∧ c.date.month = c'.date.month ∧ c.date.day = c'.date.day := by
    constructor
    · intro hnumber
      rw [CivilDate.eq_of_dayNumber_eq hc.date hc'.date hnumber]
      exact ⟨rfl, rfl, rfl⟩
    · rintro ⟨hyear, hmonth, hday⟩
      rw [CivilDate.dayNumber, CivilDate.dayNumber, hyear, hmonth, hday]
  obtain ⟨_, hhour, hminute, _, hmillisecond⟩ := hc
  obtain ⟨_, hhour', hminute', _, hmillisecond'⟩ := hc'
  unfold CivilDate.Before at hdates
  -- of the days only their order is needed, the rest is the order of digits in base 24, 60 and 1000
  simp only [numbers, List.cons_lt_cons_iff, List.lt_irrefl, and_false, or_false, toMillis,
    minuteStart]
  generalize c.date.dayNumber = number at *
  generalize c'.date.dayNumber = number' at *
  omega

end CivilTime

namespace Instant

def civil (t : Instant) : CivilTime :=
  ⟨t.date, t.secondOfDay / 3600, t.secondOfDay / 60 % 60, t.second, t.millisecond⟩

/-- The milliseconds from the beginning of 1970, rounded down. -/
def millis (t : Instant) : Int :=
  (t.seconds * 1000000000 + t.nanos) / 1000000

theorem valid_civil (t : Instant) : t.civil.Valid := by
  have hvalid := t.valid
  refine ⟨CivilDate.valid_ofDayNumber _, ?_, ?_, ?_, ?_⟩
  · simp only [civil, secondOfDay]
    omega
  · exact Nat.mod_lt _ (by decide)
  · simp only [civil, second, secondOfDay]
    omega
  · simp only [civil, millisecond]
    omega

theorem minuteStart_civil (t : Instant) : t.civil.minuteStart = t.seconds - t.seconds % 60 := by
  simp only [CivilTime.minuteStart, civil, date, CivilDate.dayNumber_ofDayNumber, secondOfDay]
  omega

/-- Up to leap seconds the date and the time of day are those of the instant. -/
theorem toMillis_civil {t : Instant} (hnanos : t.nanos < 1000000000) :
    t.civil.second < 60 ∧ t.civil.toMillis = t.millis := by
  simp only [CivilTime.toMillis, minuteStart_civil]
  simp only [civil, second, millisecond, secondOfDay, millis]
  omega

/-- A leap second is the second 60 of the minute that ends with it. -/
theorem second_civil {t : Instant} (hnanos : 1000000000 ≤ t.nanos) :
    t.civil.second = 60 ∧ t.civil.minuteStart + 59 = t.seconds ∧
      t.civil.millisecond = (t.nanos - 1000000000) / 1000000 := by
  have hvalid := t.valid
  rw [minuteStart_civil]
  simp only [civil, second, millisecond, secondOfDay]
  omega

/-- The text of an instant from behind its year. -/
def behindYear (t : Instant) : List Char :=
  '-' :: ((Numeral.padded 2 t.date.month).toList ++
    '-' :: ((Numeral.padded 2 t.date.day).toList ++
      'T' :: ((Numeral.padded 2 (t.secondOfDay / 3600)).toList ++
        ':' :: ((Numeral.padded 2 (t.secondOfDay / 60 % 60)).toList ++
          ':' :: ((Numeral.padded 2 t.second).toList ++
            '.' :: ((Numeral.padded 3 t.millisecond).toList ++ ['Z']))))))

theorem toList_text (t : Instant) :
    t.text.toList = (CivilDate.yearText t.date.year).toList ++ t.behindYear := by
  simp [text, CivilDate.text, behindYear]

/-- With a year of fixed width the text of an instant is a row of fields. -/
theorem isRow_civil (t : Instant) {width : Nat} (hwidth : 0 < width)
    (hyear : t.date.year.natAbs < 10 ^ width) :
    IsRow (CivilTime.shape width) t.civil.numbers
      ((Numeral.padded width t.date.year.natAbs).toList ++ t.behindYear) := by
  obtain ⟨hdate, hhour, hminute, hsecond, hmillisecond⟩ := t.valid_civil
  have hmonth := hdate.month_le
  have hday := hdate.day_le.trans (CivilDate.daysInMonth_le _ _)
  unfold behindYear
  have htwo : ∀ {n}, n < 100 → IsField 2 n (Numeral.padded 2 n).toList :=
    fun hn => isField_padded (by decide) hn
  refine .cons (isField_padded hwidth hyear) ?_
  refine .cons (htwo (by omega)) (.cons (htwo (by omega)) (.cons (htwo (by omega)) ?_))
  refine .cons (htwo (by omega)) (.cons (htwo (by omega)) (.cons ?_ .nil))
  exact isField_padded (by decide) hmillisecond

/-- The text of an instant shows its date and its time of day. -/
theorem written_civil {t : Instant} (hmin : -999999 ≤ t.date.year)
    (hmax : t.date.year ≤ 999999) : t.civil.Written t.text.toList := by
  rw [toList_text, CivilDate.yearText]
  split
  · rename_i hyear
    exact .plain hyear.1 hyear.2 (t.isRow_civil (by decide) (by omega))
  · have hrow := t.isRow_civil (by decide : 0 < 6) (by omega)
    have hminus : "-".toList = ['-'] := rfl
    have hplus : "+".toList = ['+'] := rfl
    rw [String.toList_append, List.append_assoc]
    split
    · rw [hminus, List.singleton_append]
      exact .earlier ‹_› hrow
    · rw [hplus, List.singleton_append]
      have hlarge : 9999 < t.date.year := by omega
      exact .later hlarge hrow

/-- Up to leap seconds, instants have one text if and only if they lie in one millisecond. -/
theorem text_eq_iff {t t' : Instant} (hmin : -999999 ≤ t.date.year) (hmax : t.date.year ≤ 999999)
    (hmin' : -999999 ≤ t'.date.year) (hmax' : t'.date.year ≤ 999999)
    (hnanos : t.nanos < 1000000000) (hnanos' : t'.nanos < 1000000000) :
    t.text = t'.text ↔ t.millis = t'.millis := by
  constructor
  · intro htext
    have hwritten' := written_civil hmin' hmax'
    rw [← htext] at hwritten'
    rw [← (toMillis_civil hnanos).2, ← (toMillis_civil hnanos').2,
      (written_civil hmin hmax).eq hwritten']
  · intro hmillis
    unfold millis at hmillis
    have hseconds : t.seconds = t'.seconds := by omega
    have hdate : t.date = t'.date := by rw [date, date, hseconds]
    have hday : t.secondOfDay = t'.secondOfDay := by rw [secondOfDay, secondOfDay, hseconds]
    have hsecond : t.second = t'.second := by
      rw [second, second, hday]
      omega
    have hmillisecond : t.millisecond = t'.millisecond := by
      unfold millisecond
      omega
    rw [text, text, hdate, hday, hsecond, hmillisecond]

theorem isRow_text {t : Instant} (hmin : 0 ≤ t.date.year) (hmax : t.date.year ≤ 9999) :
    IsRow (CivilTime.shape 4) t.civil.numbers t.text.toList := by
  have hwritten := written_civil (t := t) (by omega) (by omega)
  generalize t.text.toList = cs at hwritten ⊢
  cases hwritten with
  | plain _ _ hrow => exact hrow
  | later hyear => exact absurd hmax hyear.not_ge
  | earlier hyear => exact absurd hmin hyear.not_ge

/-- Up to leap seconds, the texts of instants in the years from 0 to 9999 are ordered as the
milliseconds in which they lie. -/
theorem text_lt_iff {t t' : Instant} (hmin : 0 ≤ t.date.year) (hmax : t.date.year ≤ 9999)
    (hmin' : 0 ≤ t'.date.year) (hmax' : t'.date.year ≤ 9999)
    (hnanos : t.nanos < 1000000000) (hnanos' : t'.nanos < 1000000000) :
    t.text < t'.text ↔ t.millis < t'.millis := by
  obtain ⟨hsecond, hmillis⟩ := toMillis_civil hnanos
  obtain ⟨hsecond', hmillis'⟩ := toMillis_civil hnanos'
  rw [← hmillis, ← hmillis', ← CivilTime.numbers_lt_iff t.valid_civil t'.valid_civil hsecond
    hsecond' hmin hmin', String.lt_iff_toList_lt]
  exact (isRow_text hmin hmax).lt_iff (isRow_text hmin' hmax')

end Instant

theorem Heap.literal?_date (h : Heap) (style : Style) (pad : String) (t : Instant) :
    h.literal? style pad (.atom (.date t)) = some ("new Date('" ++ t.text ++ "')") := by
  rw [literal?_atom, Atom.literal]

/-- The text of a date shows one time, a valid one of the calendar: the instant to the millisecond,
and a leap second as the second 60 of its minute.  Up to leap seconds dates have one text if and only
if they lie in one millisecond, and in the years from 0 to 9999 their texts are in their order. -/
theorem literal?_date_shows (h : Heap) (style : Style) (pad : String) (t : Instant)
    (hmin : -262143 ≤ t.date.year) (hmax : t.date.year ≤ 262142) :
    ∃ iso c, h.literal? style pad (.atom (.date t)) = some ("new Date('" ++ iso ++ "')") ∧
      CivilTime.Written c iso.toList ∧ (∀ c', CivilTime.Written c' iso.toList → c' = c) ∧
      c.Valid ∧ c.date = t.date ∧
      (t.nanos < 1000000000 → c.second < 60 ∧ c.toMillis = t.millis) ∧
      (1000000000 ≤ t.nanos → c.second = 60 ∧ c.minuteStart + 59 = t.seconds ∧
        c.millisecond = (t.nanos - 1000000000) / 1000000) ∧
      ∀ t' : Instant, -262143 ≤ t'.date.year → t'.date.year ≤ 262142 →
        t.nanos < 1000000000 → t'.nanos < 1000000000 →
        ∃ text', h.literal? style pad (.atom (.date t')) = some text' ∧
          ("new Date('" ++ iso ++ "')" = text' ↔ t.millis = t'.millis) ∧
          (0 ≤ t.date.year → t.date.year ≤ 9999 → 0 ≤ t'.date.year → t'.date.year ≤ 9999 →
            ("new Date('" ++ iso ++ "')" < text' ↔ t.millis < t'.millis)) := by
  have hwritten := Instant.written_civil (t := t) (by omega) (by omega)
  refine ⟨t.text, t.civil, h.literal?_date style pad t, hwritten, fun c' hc' => hc'.eq hwritten,
    t.valid_civil, rfl, Instant.toMillis_civil, Instant.second_civil, ?_⟩
  intro t' hmin' hmax' hnanos hnanos'
  refine ⟨"new Date('" ++ t'.text ++ "')", h.literal?_date style pad t', ?_, ?_⟩
  · have hsame : t.text = t'.text ↔ t.millis = t'.millis :=
      Instant.text_eq_iff (by omega) (by omega) (by omega) (by omega) hnanos hnanos'
    rw [String.append_left_inj, String.append_right_inj, hsame]
  · intro hzero hfour hzero' hfour'
    have hlength := (Instant.isRow_text hzero hfour).length_eq (Instant.isRow_text hzero' hfour')
    rw [Numeral.between_lt_between_iff _ _ hlength,
      Instant.text_lt_iff hzero hfour hzero' hfour' hnanos hnanos']

namespace TimesWitness

def before : Instant :=
  ⟨-1, 999999999, by decide⟩

def epoch : Instant :=
  ⟨0, 0, by decide⟩

/-- The middle of the leap second at the end of 2016. -/
def leap : Instant :=
  ⟨1483228799, 1500000000, by decide⟩

theorem literal?_date_shows_before :
    (∃ iso c, Heap.empty.literal? {} "" (.atom (.date before)) =
          some ("new Date('" ++ iso ++ "')") ∧
        CivilTime.Written c iso.toList ∧ c.date = ⟨1969, 12, 31⟩ ∧ c.toMillis = -1 ∧
        ∃ text', Heap.empty.literal? {} "" (.atom (.date epoch)) = some text' ∧
          "new Date('" ++ iso ++ "')" < text') ∧
      ∃ iso c, Heap.empty.literal? {} "" (.atom (.date leap)) =
          some ("new Date('" ++ iso ++ "')") ∧
        CivilTime.Written c iso.toList ∧ c.date = ⟨2016, 12, 31⟩ ∧ c.second = 60 ∧
        c.millisecond = 500 := by
  constructor
  · obtain ⟨iso, c, hok, hwritten, -, -, hdate, hplain, -, hothers⟩ :=
      literal?_date_shows Heap.empty {} "" before (by decide) (by decide)
    obtain ⟨text', hok', -, horder⟩ :=
      hothers epoch (by decide) (by decide) (by decide) (by decide)
    have hmillis : before.millis = -1 ∧ before.millis < epoch.millis := by decide
    refine ⟨iso, c, hok, hwritten, hdate.trans (by decide +kernel), ?_, text', hok', ?_⟩
    · exact (hplain (by decide)).2.trans hmillis.1
    · exact (horder (by decide) (by decide) (by decide) (by decide)).mpr hmillis.2
  · obtain ⟨iso, c, hok, hwritten, -, -, hdate, -, hleap, -⟩ :=
      literal?_date_shows Heap.empty {} "" leap (by decide) (by decide)
    obtain ⟨hsecond, -, hmillisecond⟩ := hleap (by decide)
    exact ⟨iso, c, hok, hwritten, hdate.trans (by decide +kernel), hsecond,
      hmillisecond.trans (by decide)⟩

end TimesWitness

end ObjectLiteral
