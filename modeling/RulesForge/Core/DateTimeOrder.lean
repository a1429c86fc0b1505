import RulesForge.Core.Compare
import RulesForge.Core.TextForms
import RulesForge.Library.Calendar
import RulesForge.Library.NumeralOrder

/-!
# The order of times and date-times

Like exact numbers, times and date-times are compared by their **texts** (`format_time`,
`format_datetime` in `src/core/rfl_rete_defs.cpp`). The texts of times stand in the order of the
times. The text of a date-time gives the local time first, to the second, then the milliseconds if
there are any, and the time zone last; the instant that it denotes is the local time less the offset
of the zone. `evaluateCompare_moment_iff` says which two date-times are compared as the instants.
-/

namespace RulesForge

/-! ### Times and instants -/

/-- A time of the day. -/
structure ValidTime (hour minute second millisecond : ℤ) : Prop where
  hour : 0 ≤ hour ∧ hour < 24
  minute : 0 ≤ minute ∧ minute < 60
  second : 0 ≤ second ∧ second < 60
  millisecond : 0 ≤ millisecond ∧ millisecond < 1000

def TimeValue.Valid (t : TimeValue) : Prop := ValidTime t.hour t.minute t.second t.millisecond

/-- The milliseconds since the day began. -/
def TimeValue.instant (t : TimeValue) : ℤ :=
  ((t.hour * 60 + t.minute) * 60 + t.second) * 1000 + t.millisecond

namespace DateTimeValue

/-- A date-time with a time zone. -/
structure Valid (t : DateTimeValue) : Prop where
  year : 0 ≤ t.year ∧ t.year ≤ 9999
  date : ValidDate t.year t.month t.day
  time : ValidTime t.hour t.minute t.second t.millisecond
  hasTimezone : t.hasTimezone = true

/-- The seconds of the local time. -/
def localSecond (t : DateTimeValue) : ℤ :=
  ((dayNumber t.year t.month t.day * 24 + t.hour) * 60 + t.minute) * 60 + t.second

/-- The milliseconds of the instant, at the zero meridian. -/
def instant (t : DateTimeValue) : ℤ :=
  (t.localSecond - 60 * t.tzOffsetMinutes) * 1000 + t.millisecond

end DateTimeValue

/-! ### The order in which they are written -/

/-- The number of digits that the hours of an offset are written with. -/
def hourWidth (offset : ℕ) : ℕ := max 2 (Nat.toDigits 10 (offset / 60)).length

/-- The text of the smaller offset comes first: the hours are written with equally many digits, or
those of the smaller one come before the leading digits of the other. -/
def ClockFirst (offset offset' : ℕ) : Prop :=
  hourWidth offset = hourWidth offset' ∨
    offset / 60 < offset' / 60 / 10 ^ (hourWidth offset' - hourWidth offset)

/-- The text of the time zone with the greater offset comes first. -/
def ZoneFirst (greater smaller : ℤ) : Prop :=
  (0 < greater ∧ smaller ≤ 0) ∨ (0 < smaller ∧ ¬ ClockFirst smaller.natAbs greater.natAbs) ∨
    (greater < 0 ∧ ClockFirst greater.natAbs smaller.natAbs)

namespace DateTimeValue

variable (a b : DateTimeValue)

/-- Of two date-times in one second of local time, the text of the one with the greater offset comes
first. -/
def WrittenFirst : Prop :=
  if a.millisecond = b.millisecond then ZoneFirst a.tzOffsetMinutes b.tzOffsetMinutes
  else if a.millisecond = 0 then a.tzOffsetMinutes ≠ 0
  else if b.millisecond = 0 then b.tzOffsetMinutes = 0
  else a.millisecond < b.millisecond

/-- The texts stand in the order of the instants. In different seconds of local time: the offsets do
not turn their order round. In one second and one zone: not at the zero meridian with milliseconds
in one text only. In one second and two zones: the text with the greater offset comes first. -/
def KeepsOrder : Prop :=
  if a.localSecond = b.localSecond then
    if a.tzOffsetMinutes = b.tzOffsetMinutes then
      a.tzOffsetMinutes = 0 → (a.millisecond = 0 ↔ b.millisecond = 0)
    else if b.tzOffsetMinutes < a.tzOffsetMinutes then a.WrittenFirst b else b.WrittenFirst a
  else if a.localSecond < b.localSecond then a.instant < b.instant else b.instant < a.instant

end DateTimeValue

/-! ### Local times -/

/-- The milliseconds as they are written. -/
def millisecondCode (ms : ℤ) : List Char :=
  (writtenMilliseconds ms).elim [] fun ms ↦ '.' :: padDigits 3 ms

theorem millisecondCode_zero : millisecondCode 0 = [] := rfl

theorem millisecondCode_of_ne {ms : ℤ} (h : ms ≠ 0) :
    millisecondCode ms = '.' :: padDigits 3 ms := by
  rw [millisecondCode, writtenMilliseconds, if_pos h]
  rfl

section Times

variable {h m s ms h' m' s' ms' : ℤ}

/-- Times are ordered by their seconds, and then by what is written after these. -/
theorem compare_timeCode (ht : ValidTime h m s ms) (ht' : ValidTime h' m' s' ms')
    (z z' : List Char) :
    compare (timeCode (h, m, s, writtenMilliseconds ms) ++ z)
        (timeCode (h', m', s', writtenMilliseconds ms') ++ z') =
      (compare h h').then ((compare m m').then ((compare s s').then
        (compare (millisecondCode ms ++ z) (millisecondCode ms' ++ z')))) := by
  have hpad : ∀ {i j : ℤ} (x y : List Char), 0 ≤ i ∧ i < 100 → 0 ≤ j ∧ j < 100 →
      compare (padDigits 2 i ++ x) (padDigits 2 j ++ y) = (compare i j).then (compare x y) := by
    intro i j x y hi hj
    have hlength : (padDigits 2 i).length = (padDigits 2 j).length := by
      rw [length_padDigits_of_lt (by omega) hi.1 hi.2, length_padDigits_of_lt (by omega) hj.1 hj.2]
    rw [compare_append hlength, compare_padDigits (by omega) hi.1 hi.2 hj.1 hj.2]
  have hwiden : ∀ {i n : ℤ}, 0 ≤ i ∧ i < n → n ≤ 100 → 0 ≤ i ∧ i < 100 :=
    fun hi hn ↦ ⟨hi.1, hi.2.trans_le hn⟩
  have hcode : ∀ (h m s ms : ℤ) (z : List Char), timeCode (h, m, s, writtenMilliseconds ms) ++ z =
      padDigits 2 h ++ ':' :: (padDigits 2 m ++ ':' :: (padDigits 2 s ++
        (millisecondCode ms ++ z))) := by
    intro h m s ms z
    simp [timeCode, millisecondCode]
  rw [hcode, hcode, hpad _ _ (hwiden ht.hour (by omega)) (hwiden ht'.hour (by omega)),
    compare_cons_self, hpad _ _ (hwiden ht.minute (by omega)) (hwiden ht'.minute (by omega)),
    compare_cons_self, hpad _ _ (hwiden ht.second (by omega)) (hwiden ht'.second (by omega))]

/-- Milliseconds that are both written are ordered by their number. -/
theorem compare_milliseconds_of_ne (ht : ValidTime h m s ms) (ht' : ValidTime h' m' s' ms')
    (hms : ms ≠ 0) (hms' : ms' ≠ 0) (z z' : List Char) :
    compare (millisecondCode ms ++ z) (millisecondCode ms' ++ z') =
      (compare ms ms').then (compare z z') := by
  have hlt := ht.millisecond
  have hlt' := ht'.millisecond
  have hlength : (padDigits 3 ms).length = (padDigits 3 ms').length := by
    rw [length_padDigits_of_lt (by omega) hlt.1 hlt.2, length_padDigits_of_lt (by omega) hlt'.1 hlt'.2]
  rw [millisecondCode_of_ne hms, millisecondCode_of_ne hms', List.cons_append, List.cons_append,
    compare_cons_self, compare_append hlength,
    compare_padDigits (by omega) hlt.1 hlt.2 hlt'.1 hlt'.2]

/-- **The texts of times** stand in the order of the times. -/
theorem compare_formatTime {t t' : TimeValue} (ht : t.Valid) (ht' : t'.Valid) :
    compare (formatTime t) (formatTime t') = compare t.instant t'.instant := by
  have hms : compare (millisecondCode t.millisecond ++ []) (millisecondCode t'.millisecond ++ []) =
      compare t.millisecond t'.millisecond := by
    have hlt := ht.millisecond
    have hlt' := ht'.millisecond
    by_cases h : t.millisecond = 0
    · by_cases h' : t'.millisecond = 0
      · rw [h, h']
        rfl
      · rw [h, millisecondCode_of_ne h', compare_lt_iff_lt.mpr (by omega)]
        rfl
    · by_cases h' : t'.millisecond = 0
      · rw [h', millisecondCode_of_ne h, compare_gt_iff_gt.mpr (by omega)]
        rfl
      · rw [compare_milliseconds_of_ne ht ht' h h']
        exact Ordering.then_eq
  have hcode := compare_timeCode ht ht' [] []
  rw [List.append_nil, List.append_nil] at hcode
  rw [compare_string, formatTime_toList, formatTime_toList, hcode, hms, ← Ordering.then_assoc,
    ← Ordering.then_assoc, compare_radix ht.minute ht'.minute, compare_radix ht.second ht'.second,
    compare_radix ht.millisecond ht'.millisecond]
  rfl

end Times

/-! ### Time zones -/

/-- The hours and minutes of an offset. -/
def clockCode (offset : ℕ) : List Char :=
  padDigits 2 (offset / 60 : ℕ) ++ ':' :: padDigits 2 (offset % 60 : ℕ)

theorem length_hours (offset : ℕ) :
    (padDigits 2 (offset / 60 : ℕ)).length = hourWidth offset :=
  length_padDigits 2 (offset / 60)

/-- Greater offsets have no fewer digits. -/
theorem hourWidth_mono {c c' : ℕ} (h : c ≤ c') : hourWidth c ≤ hourWidth c' := by
  have hdigits : (Nat.toDigits 10 (c / 60)).length ≤ (Nat.toDigits 10 (c' / 60)).length := by
    have hpos : 0 < (Nat.toDigits 10 (c' / 60)).length := Nat.length_toDigits_pos
    have hlt : c' / 60 < 10 ^ (Nat.toDigits 10 (c' / 60)).length :=
      (Nat.length_toDigits_le_iff (by omega) hpos).mp le_rfl
    exact (Nat.length_toDigits_le_iff (by omega) hpos).mpr
      ((Nat.div_le_div_right h).trans_lt hlt)
  exact max_le_max le_rfl hdigits

/-- Which of two offsets has the first text. -/
theorem compare_clockCode_eq_lt_iff {c c' : ℕ} (h : c < c') :
    compare (clockCode c) (clockCode c') = .lt ↔ ClockFirst c c' := by
  have hminutes : ∀ {c : ℕ}, (0 : ℤ) ≤ ((c % 60 : ℕ) : ℤ) ∧ ((c % 60 : ℕ) : ℤ) < 10 ^ 2 :=
    fun {c} ↦ ⟨by omega, by omega⟩
  unfold clockCode ClockFirst
  by_cases hwidth : hourWidth c = hourWidth c'
  · have hlength : (padDigits 2 (c / 60 : ℕ)).length = (padDigits 2 (c' / 60 : ℕ)).length := by
      rw [length_hours, length_hours, hwidth]
    rw [compare_append hlength, compare_cons_self,
      compare_digits (digits_padDigits _ _) (digits_padDigits _ _) hlength, numeralValue_padDigits,
      numeralValue_padDigits,
      compare_padDigits (by omega) hminutes.1 hminutes.2 hminutes.1 hminutes.2, Ordering.then_eq_lt,
      compare_lt_iff_lt, compare_eq_iff_eq, compare_lt_iff_lt]
    refine iff_of_true ?_ (.inl hwidth)
    omega
  · have hlt : hourWidth c < hourWidth c' := lt_of_le_of_ne (hourWidth_mono h.le) hwidth
    have hlength : (padDigits 2 (c / 60 : ℕ)).length < (padDigits 2 (c' / 60 : ℕ)).length := by
      rwa [length_hours, length_hours]
    have hcolon : ∀ d rest, d.isDigit = true →
        compare (':' :: padDigits 2 (c % 60 : ℕ)) (d :: rest) = .gt := by
      intro d rest hd
      have hgt : d < ':' := by
        have := toNat_of_isDigit hd
        show d.toNat < 58
        omega
      rw [compare_cons, compare_gt_iff_gt.mpr hgt]
      rfl
    rw [compare_cut (digits_padDigits _ _) (digits_padDigits _ _) hlength hcolon,
      numeralValue_padDigits, numeralValue_padDigits, length_hours, length_hours, Ordering.then_eq_lt,
      compare_lt_iff_lt]
    simp [hwidth]

theorem clockCode_ne {c c' : ℕ} (h : c < c') : compare (clockCode c) (clockCode c') ≠ .eq := by
  intro heq
  have hlist := Std.LawfulEqCmp.compare_eq_iff_eq.mp heq
  have hclock : Function.Injective fun p : ℤ × ℤ ↦ padDigits 2 p.1 ++ ':' :: padDigits 2 p.2 := by
    have hpair : Delimited NoDigit fun p : ℤ × ℤ ↦ padDigits 2 p.1 ++ ':' :: padDigits 2 p.2 :=
      (delimited_padDigits (by omega)).append_cons (delimited_padDigits (by omega)) rfl
    exact hpair.injective
  have hmembers := @hclock ((c / 60 : ℕ), (c % 60 : ℕ)) ((c' / 60 : ℕ), (c' % 60 : ℕ)) hlist
  simp only [Prod.mk.injEq, Nat.cast_inj] at hmembers
  omega

theorem compare_clockCode_eq_gt_iff {c c' : ℕ} (h : c < c') :
    compare (clockCode c) (clockCode c') = .gt ↔ ¬ ClockFirst c c' := by
  rw [← compare_clockCode_eq_lt_iff h]
  cases hcompare : compare (clockCode c) (clockCode c') with
  | eq => exact absurd hcompare (clockCode_ne h)
  | lt => simp
  | gt => simp

section Zones

variable {o o' : ℤ}

theorem zoneCode_zero : zoneCode (some 0) = ['Z'] := rfl

theorem zoneCode_neg (h : o < 0) : zoneCode (some o) = '-' :: clockCode o.natAbs := by
  simp [zoneCode, zoneSign, zoneClock, clockCode, h, h.ne]

theorem zoneCode_pos (h : 0 < o) : zoneCode (some o) = '+' :: clockCode o.natAbs := by
  simp [zoneCode, zoneSign, zoneClock, clockCode, h.not_gt, h.ne']

/-- Which of two time zones has the first text. -/
theorem compare_zoneCode_eq_lt_iff (h : o' < o) :
    compare (zoneCode (some o)) (zoneCode (some o')) = .lt ↔ ZoneFirst o o' := by
  unfold ZoneFirst
  rcases lt_trichotomy o 0 with ho | ho | ho
  · -- Both are west of the meridian, the second one farther.
    have habs : o.natAbs < o'.natAbs := by omega
    rw [zoneCode_neg ho, zoneCode_neg (h.trans ho), compare_cons_self,
      compare_clockCode_eq_lt_iff habs]
    constructor
    · exact fun hfirst ↦ .inr (.inr ⟨ho, hfirst⟩)
    · rintro (⟨hpos, -⟩ | ⟨hpos, -⟩ | ⟨-, hfirst⟩)
      · omega
      · omega
      · exact hfirst
  · subst ho
    rw [zoneCode_zero, zoneCode_neg h, compare_cons, show compare 'Z' '-' = .gt from rfl]
    refine iff_of_false nofun ?_
    rintro (⟨hpos, -⟩ | ⟨hpos, -⟩ | ⟨hneg, -⟩) <;> omega
  · rcases lt_trichotomy o' 0 with ho' | ho' | ho'
    · rw [zoneCode_pos ho, zoneCode_neg ho', compare_cons, show compare '+' '-' = .lt from rfl]
      exact iff_of_true rfl (.inl ⟨ho, ho'.le⟩)
    · subst ho'
      rw [zoneCode_pos ho, zoneCode_zero, compare_cons, show compare '+' 'Z' = .lt from rfl]
      exact iff_of_true rfl (.inl ⟨ho, Int.le_refl 0⟩)
    · have habs : o'.natAbs < o.natAbs := by omega
      rw [zoneCode_pos ho, zoneCode_pos ho', compare_cons_self, compare_list_swap,
        Ordering.swap_eq_lt, compare_clockCode_eq_gt_iff habs]
      constructor
      · exact fun hfirst ↦ .inr (.inl ⟨ho', hfirst⟩)
      · rintro (⟨-, hneg⟩ | ⟨-, hfirst⟩ | ⟨hneg, -⟩)
        · omega
        · exact hfirst
        · omega

/-- A point comes before the letter of the zero meridian and after a sign. -/
theorem compare_zoneCode_point (o : ℤ) (rest : List Char) :
    compare (zoneCode (some o)) ('.' :: rest) = if o = 0 then .gt else .lt := by
  rcases lt_trichotomy o 0 with ho | ho | ho
  · rw [zoneCode_neg ho, compare_cons, show compare '-' '.' = .lt from rfl, if_neg ho.ne]
    rfl
  · subst ho
    rw [zoneCode_zero, compare_cons, show compare 'Z' '.' = .gt from rfl, if_pos rfl]
    rfl
  · rw [zoneCode_pos ho, compare_cons, show compare '+' '.' = .lt from rfl, if_neg ho.ne']
    rfl

end Zones

/-! ### Date-times -/

namespace DateTimeValue

/-- What is written after the seconds. -/
def tailCode (t : DateTimeValue) : List Char :=
  millisecondCode t.millisecond ++ zoneCode (some t.tzOffsetMinutes)

variable {a b : DateTimeValue}

theorem compare_zone_self (o : ℤ) :
    compare (zoneCode (some o)) (zoneCode (some o)) = .eq :=
  Std.ReflCmp.compare_self

/-- The text of the date comes before that of the time. -/
theorem compare_formatDatetime (ha : a.Valid) (hb : b.Valid) :
    compare (formatDatetime a) (formatDatetime b) =
      (compare a.localSecond b.localSecond).then (compare a.tailCode b.tailCode) := by
  have hzone : ∀ {t : DateTimeValue}, t.Valid → t.zone = some t.tzOffsetMinutes :=
    fun h ↦ if_pos h.hasTimezone
  have hmonth : ∀ {y m d : ℤ}, ValidDate y m d → 0 ≤ m ∧ m < 10 ^ 2 :=
    fun h ↦ ⟨by have := h.month_pos; omega, by have := h.month_le; omega⟩
  have hday : ∀ {y m d : ℤ}, ValidDate y m d → 0 ≤ d ∧ d < 10 ^ 2 := by
    intro y m d h
    have hend : ∀ leap : Bool, ∀ i : Fin 12, daysInMonth leap (i + 1) ≤ 31 := by decide
    have hle := hend (isLeapYear y) ⟨(m - 1).toNat, by have := h.month_le; omega⟩
    have hi : (((m - 1).toNat : ℕ) : ℤ) + 1 = m := by have := h.month_pos; omega
    rw [hi] at hle
    exact ⟨by have := h.day_pos; omega, by have := h.day_le; omega⟩
  have hpad : ∀ {width : ℕ} {i j : ℤ} (x y : List Char), 0 < width → 0 ≤ i ∧ i < 10 ^ width →
      0 ≤ j ∧ j < 10 ^ width → compare (padDigits width i ++ x) (padDigits width j ++ y) =
        (compare i j).then (compare x y) := by
    intro width i j x y hwidth hi hj
    have hlength : (padDigits width i).length = (padDigits width j).length := by
      rw [length_padDigits_of_lt hwidth hi.1 hi.2, length_padDigits_of_lt hwidth hj.1 hj.2]
    rw [compare_append hlength, compare_padDigits hwidth hi.1 hi.2 hj.1 hj.2]
  have hcode : ∀ {t : DateTimeValue}, t.Valid → (formatDatetime t).toList =
      padDigits 4 t.year ++ '-' :: (padDigits 2 t.month ++ '-' :: (padDigits 2 t.day ++ 'T' ::
        (timeCode (t.hour, t.minute, t.second, writtenMilliseconds t.millisecond) ++
          zoneCode (some t.tzOffsetMinutes)))) := by
    intro t ht
    rw [formatDatetime_toList, hzone ht]
    simp [dateTimeCode, dateCode]
  have hyear : ∀ {t : DateTimeValue}, t.Valid → 0 ≤ t.year ∧ t.year < 10 ^ 4 :=
    fun h ↦ ⟨h.year.1, by have := h.year.2; omega⟩
  rw [compare_string, hcode ha, hcode hb, hpad _ _ (by omega) (hyear ha) (hyear hb),
    compare_cons_self, hpad _ _ (by omega) (hmonth ha.date) (hmonth hb.date), compare_cons_self,
    hpad _ _ (by omega) (hday ha.date) (hday hb.date), compare_cons_self,
    compare_timeCode ha.time hb.time]
  show _ = (compare (((_ * 24 + a.hour) * 60 + a.minute) * 60 + a.second) _).then _
  rw [localSecond, ← compare_radix ha.time.second hb.time.second,
    ← compare_radix ha.time.minute hb.time.minute, ← compare_radix ha.time.hour hb.time.hour,
    ← compare_dayNumber ha.date hb.date]
  simp only [Ordering.then_assoc]
  rfl

/-- In one zone the milliseconds decide, unless only one text has any. -/
theorem compare_tailCode_of_zone_eq (ha : a.Valid) (hb : b.Valid)
    (hzone : a.tzOffsetMinutes = b.tzOffsetMinutes) :
    compare a.tailCode b.tailCode = compare a.millisecond b.millisecond ↔
      (a.tzOffsetMinutes = 0 → (a.millisecond = 0 ↔ b.millisecond = 0)) := by
  have hams := ha.time.millisecond
  have hbms := hb.time.millisecond
  unfold tailCode
  by_cases hzero : a.millisecond = 0
  · by_cases hzero' : b.millisecond = 0
    · rw [hzero, hzero', hzone, compare_append_self, compare_zone_self, compare_eq_iff_eq.mpr rfl]
      simp
    · rw [hzero, millisecondCode_zero, List.nil_append, millisecondCode_of_ne hzero',
        List.cons_append, compare_zoneCode_point, compare_lt_iff_lt.mpr (by omega)]
      by_cases ho : a.tzOffsetMinutes = 0 <;> simp [ho, hzero']
  · by_cases hzero' : b.millisecond = 0
    · rw [hzero', millisecondCode_zero, List.nil_append, millisecondCode_of_ne hzero,
        List.cons_append, compare_list_swap, compare_zoneCode_point, ← hzone,
        compare_gt_iff_gt.mpr (by omega)]
      by_cases ho : a.tzOffsetMinutes = 0 <;> simp [ho, hzero, Ordering.swap]
    · rw [compare_milliseconds_of_ne ha.time hb.time hzero hzero', hzone, compare_zone_self,
        Ordering.then_eq]
      simp [hzero, hzero']

/-- In two zones the text with the greater offset may come first. -/
theorem compare_tailCode_eq_lt_iff (ha : a.Valid) (hb : b.Valid)
    (hzone : b.tzOffsetMinutes < a.tzOffsetMinutes) :
    compare a.tailCode b.tailCode = .lt ↔ a.WrittenFirst b := by
  unfold WrittenFirst tailCode
  by_cases hms : a.millisecond = b.millisecond
  · rw [if_pos hms, hms, compare_append_self, compare_zoneCode_eq_lt_iff hzone]
  rw [if_neg hms]
  by_cases hzero : a.millisecond = 0
  · have hzero' : b.millisecond ≠ 0 := fun h ↦ hms (hzero.trans h.symm)
    rw [if_pos hzero, hzero, millisecondCode_zero, List.nil_append, millisecondCode_of_ne hzero',
      List.cons_append, compare_zoneCode_point]
    by_cases ho : a.tzOffsetMinutes = 0 <;> simp [ho]
  rw [if_neg hzero]
  by_cases hzero' : b.millisecond = 0
  · rw [if_pos hzero', hzero', millisecondCode_zero, List.nil_append, millisecondCode_of_ne hzero,
      List.cons_append, compare_list_swap, compare_zoneCode_point]
    by_cases ho : b.tzOffsetMinutes = 0 <;> simp [ho, Ordering.swap]
  · rw [if_neg hzero', compare_milliseconds_of_ne ha.time hb.time hzero hzero', Ordering.then_eq_lt,
      compare_lt_iff_lt, compare_eq_iff_eq]
    simp [hms]

/-- **When the texts of date-times stand in the order of the instants.** -/
theorem compare_formatDatetime_iff (ha : a.Valid) (hb : b.Valid) :
    compare (formatDatetime a) (formatDatetime b) = compare a.instant b.instant ↔
      a.KeepsOrder b := by
  have hams := ha.time.millisecond
  have hbms := hb.time.millisecond
  rw [compare_formatDatetime ha hb]
  unfold KeepsOrder
  rcases lt_trichotomy a.localSecond b.localSecond with hsecond | hsecond | hsecond
  · rw [compare_lt_iff_lt.mpr hsecond, if_neg hsecond.ne, if_pos hsecond, ← compare_lt_iff_lt]
    exact eq_comm
  · rw [compare_eq_iff_eq.mpr hsecond, Ordering.eq_then, if_pos hsecond]
    rcases lt_trichotomy a.tzOffsetMinutes b.tzOffsetMinutes with hzone | hzone | hzone
    · have hinstant : b.instant < a.instant := by
        unfold instant
        omega
      rw [if_neg hzone.ne, if_neg hzone.not_gt, compare_gt_iff_gt.mpr hinstant, compare_list_swap,
        Ordering.swap_eq_gt, compare_tailCode_eq_lt_iff hb ha hzone]
    · have hinstant : compare a.instant b.instant = compare a.millisecond b.millisecond := by
        unfold instant
        rw [hsecond, hzone]
        rcases lt_trichotomy a.millisecond b.millisecond with h | h | h
        · rw [compare_lt_iff_lt.mpr h, compare_lt_iff_lt.mpr (by omega)]
        · rw [h, compare_eq_iff_eq.mpr rfl, compare_eq_iff_eq.mpr rfl]
        · rw [compare_gt_iff_gt.mpr h, compare_gt_iff_gt.mpr (by omega)]
      rw [if_pos hzone, hinstant, compare_tailCode_of_zone_eq ha hb hzone]
    · have hinstant : a.instant < b.instant := by
        unfold instant
        omega
      rw [if_neg hzone.ne', if_pos hzone, compare_lt_iff_lt.mpr hinstant,
        compare_tailCode_eq_lt_iff ha hb hzone]
  · rw [compare_gt_iff_gt.mpr hsecond, if_neg hsecond.ne', if_neg hsecond.not_gt,
      ← compare_gt_iff_gt]
    exact eq_comm

end DateTimeValue

/-! ### Comparison -/

/-- What is compared: two date-times with time zones, or two times. -/
inductive MomentPair where
  | dateTimes (a b : DateTimeValue) (ha : a.Valid) (hb : b.Valid)
  | times (a b : TimeValue) (ha : a.Valid) (hb : b.Valid)

namespace MomentPair

def lhs : MomentPair → ConstraintValue
  | dateTimes a _ _ _ => .dateTime a
  | times a _ _ _ => .time a

def rhs : MomentPair → ConstraintValue
  | dateTimes _ b _ _ => .dateTime b
  | times _ b _ _ => .time b

def left : MomentPair → ℤ
  | dateTimes a _ _ _ => a.instant
  | times a _ _ _ => a.instant

def right : MomentPair → ℤ
  | dateTimes _ b _ _ => b.instant
  | times _ b _ _ => b.instant

/-- Times always keep their order. -/
def KeepsOrder : MomentPair → Prop
  | dateTimes a b _ _ => a.KeepsOrder b
  | times _ _ _ _ => True

end MomentPair

/-- **When times and date-times are compared chronologically.** For two valid date-times with time
zones, or two times, all six comparisons agree with the instants denoted if and only if the pair
keeps its order as texts. -/
theorem evaluateCompare_moment_iff (factId : FactPtr → ℤ) (p : MomentPair) :
    (∀ op : CompareOp, op.IsComparison →
      (evaluateCompare factId op p.lhs p.rhs = true ↔ op.Relates p.left p.right)) ↔
      p.KeepsOrder := by
  cases p with
  | dateTimes a b ha hb =>
    show _ ↔ a.KeepsOrder b
    rw [← DateTimeValue.compare_formatDatetime_iff ha hb, ← forall_relates_iff]
    refine forall₂_congr fun op hop ↦ ?_
    show (evaluateCompare factId op (.dateTime a) (.dateTime b) = true ↔ _) ↔ _
    rw [evaluateCompare_of_texts factId hop rfl rfl rfl]
    rfl
  | times a b ha hb =>
    refine iff_of_true (fun op hop ↦ ?_) trivial
    show evaluateCompare factId op (.time a) (.time b) = true ↔ op.Relates a.instant b.instant
    rw [evaluateCompare_of_texts factId hop rfl rfl rfl, compare_formatTime ha hb]
    exact evaluateOrderedCompare_iff_relates hop _ _

/-- `2024-01-02T03:04:05Z` and half a second later. -/
def onTheSecond : DateTimeValue := ⟨2024, 1, 2, 3, 4, 5, 0, 0, true⟩

def halfASecondLater : DateTimeValue := { onTheSecond with millisecond := 500 }

theorem valid_onTheSecond : onTheSecond.Valid where
  year := by decide
  date := ⟨by decide, by decide, by decide, by decide⟩
  time := ⟨by decide, by decide, by decide, by decide⟩
  hasTimezone := rfl

theorem valid_halfASecondLater : halfASecondLater.Valid where
  year := by decide
  date := ⟨by decide, by decide, by decide, by decide⟩
  time := ⟨by decide, by decide, by decide, by decide⟩
  hasTimezone := rfl

/-- The later instant is compared as the earlier one, since a point comes before a `Z`. -/
theorem evaluateCompare_halfASecondLater :
    onTheSecond.Valid ∧ halfASecondLater.Valid ∧
      CompareOp.Relates .lt onTheSecond.instant halfASecondLater.instant ∧
      evaluateCompare (fun _ ↦ 0) .lt (.dateTime onTheSecond) (.dateTime halfASecondLater) = false :=
  ⟨valid_onTheSecond, valid_halfASecondLater,
    show onTheSecond.instant < halfASecondLater.instant by decide, by decide⟩

end RulesForge
