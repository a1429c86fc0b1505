import RulesForge.Core.Value
import RulesForge.Library.Delimited

/-!
# Which values have the same text

The texts of dates, times and date-times tell their members apart, whatever these are: each
text is put together from padded numbers and separators, and can be read from the front
(`formatDate_inj`, `formatTime_inj`). Only the offset of a date-time without a time zone is not
in its text (`formatDatetime_eq_iff`).

A decimal is not determined by its text, since trailing zeros are dropped; the text of an amount
of money determines its currency and the text of its number (`moneyText_eq_iff`).
-/

namespace RulesForge

theorem padded_toList (width : ℕ) (i : ℤ) : (padded width i).toList = padDigits width i := by
  simp only [padded, String.toList_ofList, toString_toList_int, padDigits]

/-! ### Dates -/

/-- Year, month and day. -/
def dateCode (p : ℤ × ℤ × ℤ) : List Char :=
  padDigits 4 p.1 ++ '-' :: (padDigits 2 p.2.1 ++ '-' :: padDigits 2 p.2.2)

theorem delimited_dateCode : Delimited NoDigit dateCode := by
  have hday : Delimited NoDigit fun p : ℤ × ℤ ↦ padDigits 2 p.1 ++ '-' :: padDigits 2 p.2 :=
    (delimited_padDigits (by omega)).append_cons (delimited_padDigits (by omega)) rfl
  exact (delimited_padDigits (by omega)).append_cons hday rfl

theorem formatDate_toList (d : DateValue) :
    (formatDate d).toList = dateCode (d.year, d.month, d.day) := by
  simp [formatDate, dateCode, padded_toList]

theorem formatDate_inj {d d' : DateValue} : formatDate d = formatDate d' ↔ d = d' := by
  refine ⟨fun h ↦ ?_, fun h ↦ by rw [h]⟩
  have hcode : dateCode (d.year, d.month, d.day) = dateCode (d'.year, d'.month, d'.day) := by
    rw [← formatDate_toList, h, formatDate_toList]
  have hmembers := delimited_dateCode.injective hcode
  cases d
  cases d'
  simpa using hmembers

/-! ### Times -/

/-- A letter after which a time has ended. -/
def TimeStop (c : Char) : Prop := NoDigit c ∧ c ≠ '.'

/-- Hour, minute, second, and the milliseconds if there are any. -/
def timeCode (p : ℤ × ℤ × ℤ × Option ℤ) : List Char :=
  padDigits 2 p.1 ++ ':' :: (padDigits 2 p.2.1 ++ ':' ::
    (padDigits 2 p.2.2.1 ++ p.2.2.2.elim [] fun ms ↦ '.' :: padDigits 3 ms))

theorem delimited_timeCode : Delimited TimeStop timeCode := by
  have hms : Delimited TimeStop fun ms : Option ℤ ↦ ms.elim [] fun ms ↦ '.' :: padDigits 3 ms :=
    ((delimited_padDigits (by omega)).mono fun _ h ↦ h.1).option fun h ↦ h.2 rfl
  have hsecond : Delimited TimeStop fun p : ℤ × Option ℤ ↦
      padDigits 2 p.1 ++ p.2.elim [] fun ms ↦ '.' :: padDigits 3 ms := by
    refine (delimited_padDigits (by omega)).append hms fun ms rest hrest ↦ ?_
    cases ms with
    | none => exact hrest.mono fun _ h ↦ h.1
    | some ms => exact stopped_cons.mpr rfl
  have hminute : Delimited TimeStop fun p : ℤ × ℤ × Option ℤ ↦ padDigits 2 p.1 ++ ':' ::
      (padDigits 2 p.2.1 ++ p.2.2.elim [] fun ms ↦ '.' :: padDigits 3 ms) :=
    (delimited_padDigits (by omega)).append_cons hsecond rfl
  exact (delimited_padDigits (by omega)).append_cons hminute rfl

/-- The milliseconds that are written. -/
def writtenMilliseconds (ms : ℤ) : Option ℤ := if ms ≠ 0 then some ms else none

theorem writtenMilliseconds_inj {ms ms' : ℤ} :
    writtenMilliseconds ms = writtenMilliseconds ms' ↔ ms = ms' := by
  unfold writtenMilliseconds
  by_cases h : ms = 0 <;> by_cases h' : ms' = 0 <;> simp [h, h', eq_comm]

theorem formatTime_toList (t : TimeValue) : (formatTime t).toList =
    timeCode (t.hour, t.minute, t.second, writtenMilliseconds t.millisecond) := by
  by_cases h : t.millisecond = 0 <;>
    simp [formatTime, timeCode, padded_toList, writtenMilliseconds, h]

theorem formatTime_inj {t t' : TimeValue} : formatTime t = formatTime t' ↔ t = t' := by
  refine ⟨fun h ↦ ?_, fun h ↦ by rw [h]⟩
  have hcode := congrArg String.toList h
  rw [formatTime_toList, formatTime_toList] at hcode
  have hmembers := delimited_timeCode.injective hcode
  simp only [Prod.mk.injEq, writtenMilliseconds_inj] at hmembers
  cases t
  cases t'
  simpa using hmembers

/-! ### Date-times -/

/-- The letter that begins a time zone. -/
def zoneSign (offset : ℤ) : Char :=
  if offset = 0 then 'Z' else if offset < 0 then '-' else '+'

/-- The hours and minutes of a time zone. -/
def zoneClock (offset : ℤ) : List Char :=
  if offset = 0 then []
  else padDigits 2 (offset.natAbs / 60 : ℕ) ++ ':' :: padDigits 2 (offset.natAbs % 60 : ℕ)

/-- A time zone: none, or the offset from the zero meridian in minutes. -/
def zoneCode (zone : Option ℤ) : List Char :=
  zone.elim [] fun offset ↦ zoneSign offset :: zoneClock offset

theorem zoneSign_eq {i j : ℤ} (h : zoneSign i = zoneSign j) :
    (i = 0 ↔ j = 0) ∧ (i < 0 ↔ j < 0) := by
  unfold zoneSign at h
  by_cases hi : i = 0 <;> by_cases hj : j = 0 <;> by_cases hi' : i < 0 <;> by_cases hj' : j < 0 <;>
    simp [hi, hj, hi', hj'] at h ⊢

theorem zoneClock_eq {i j : ℤ} (h : zoneClock i = zoneClock j) (hi : i ≠ 0) (hj : j ≠ 0) :
    i.natAbs = j.natAbs := by
  have hclock : Function.Injective fun p : ℤ × ℤ ↦ padDigits 2 p.1 ++ ':' :: padDigits 2 p.2 := by
    have hpair : Delimited NoDigit fun p : ℤ × ℤ ↦ padDigits 2 p.1 ++ ':' :: padDigits 2 p.2 :=
      (delimited_padDigits (by omega)).append_cons (delimited_padDigits (by omega)) rfl
    exact hpair.injective
  rw [zoneClock, if_neg hi, zoneClock, if_neg hj] at h
  have hpairs := @hclock ((i.natAbs / 60 : ℕ), (i.natAbs % 60 : ℕ))
    ((j.natAbs / 60 : ℕ), (j.natAbs % 60 : ℕ)) h
  simp only [Prod.mk.injEq, Nat.cast_inj] at hpairs
  omega

theorem zoneCode_injective : Function.Injective zoneCode := by
  intro x y h
  cases x with
  | none =>
    cases y with
    | none => rfl
    | some j => simp [zoneCode] at h
  | some i =>
    cases y with
    | none => simp [zoneCode] at h
    | some j =>
      have hword : zoneSign i :: zoneClock i = zoneSign j :: zoneClock j := h
      obtain ⟨hsign, hclock⟩ := List.cons.injEq .. ▸ hword
      obtain ⟨hzero, hneg⟩ := zoneSign_eq hsign
      by_cases hi : i = 0
      · rw [hi, hzero.mp hi]
      · have habs := zoneClock_eq hclock hi (hzero.not.mp hi)
        congr 1
        omega

/-- The time zone that is written. -/
def DateTimeValue.zone (t : DateTimeValue) : Option ℤ :=
  if t.hasTimezone then some t.tzOffsetMinutes else none

def dateTimeCode (p : (ℤ × ℤ × ℤ) × (ℤ × ℤ × ℤ × Option ℤ) × Option ℤ) : List Char :=
  dateCode p.1 ++ 'T' :: (timeCode p.2.1 ++ zoneCode p.2.2)

theorem dateTimeCode_injective : Function.Injective dateTimeCode := by
  have hsign : ∀ offset, TimeStop (zoneSign offset) := by
    intro offset
    unfold zoneSign
    split
    · exact ⟨rfl, by decide⟩
    · split <;> exact ⟨rfl, by decide⟩
  have htime : Delimited (fun _ ↦ False) fun p : (ℤ × ℤ × ℤ × Option ℤ) × Option ℤ ↦
      timeCode p.1 ++ zoneCode p.2 := by
    refine delimited_timeCode.append (.of_injective zoneCode_injective) fun zone rest hrest ↦ ?_
    -- A zone begins with a letter after which the time has ended.
    cases zone with
    | none => exact hrest.mono fun _ h ↦ h.elim
    | some offset => exact stopped_cons.mpr (hsign offset)
  have hall : Delimited (fun _ ↦ False) dateTimeCode :=
    delimited_dateCode.append_cons htime rfl
  exact hall.injective

theorem formatDatetime_toList (t : DateTimeValue) : (formatDatetime t).toList =
    dateTimeCode ((t.year, t.month, t.day),
      (t.hour, t.minute, t.second, writtenMilliseconds t.millisecond), t.zone) := by
  have hzone : (if t.hasTimezone = true then
      if t.tzOffsetMinutes = 0 then "Z"
      else (if t.tzOffsetMinutes < 0 then "-" else "+") ++
          padded 2 (t.tzOffsetMinutes.natAbs / 60) ++ ":" ++
          padded 2 (t.tzOffsetMinutes.natAbs % 60)
    else "").toList = zoneCode t.zone := by
    unfold DateTimeValue.zone zoneCode zoneSign zoneClock
    by_cases hz : t.hasTimezone = true
    · by_cases h0 : t.tzOffsetMinutes = 0
      · simp [hz, h0]
      · by_cases hneg : t.tzOffsetMinutes < 0 <;> simp [hz, h0, hneg, padded_toList]
    · simp [hz]
  simp only [formatDatetime, String.toList_append, hzone, formatDate_toList, formatTime_toList,
    dateTimeCode]
  simp

/-- Two date-times have the same text when they agree but for the offset of a date-time without
a time zone. -/
theorem formatDatetime_eq_iff {t t' : DateTimeValue} : formatDatetime t = formatDatetime t' ↔
    { t with tzOffsetMinutes := 0 } = { t' with tzOffsetMinutes := 0 } ∧
      (t.hasTimezone = true → t.tzOffsetMinutes = t'.tzOffsetMinutes) := by
  rw [← String.toList_inj, formatDatetime_toList, formatDatetime_toList,
    dateTimeCode_injective.eq_iff]
  cases t with
  | mk year month day hour minute second millisecond offset zoned =>
    cases t' with
    | mk year' month' day' hour' minute' second' millisecond' offset' zoned' =>
      simp only [Prod.mk.injEq, writtenMilliseconds_inj, DateTimeValue.zone,
        DateTimeValue.mk.injEq]
      cases zoned <;> cases zoned' <;> simp [and_assoc]

/-! ### Money -/

theorem space_not_mem_formatDecimal (d : DecimalValue) : ' ' ∉ (formatDecimal d).toList := by
  have hnumber : ∀ n : ℕ, ∀ c ∈ (toString n).toList, c ≠ ' ' := by
    rintro n c hc rfl
    have hc' : ' ' ∈ Nat.toDigits 10 n := by rwa [← Nat.toList_repr]
    have := isDigit_of_mem_toDigits_ten hc'
    revert this
    decide
  have hzeros : ∀ n : ℕ, ∀ c ∈ List.replicate n '0', c ≠ ' ' := by
    intro n c hc
    rw [List.eq_of_mem_replicate hc]
    decide
  have happend : ∀ {l l' : List Char}, (∀ c ∈ l, c ≠ ' ') → (∀ c ∈ l', c ≠ ' ') →
      ∀ c ∈ l ++ l', c ≠ ' ' := by
    intro l l' hl hl' c hc
    rcases List.mem_append.mp hc with hc | hc
    · exact hl c hc
    · exact hl' c hc
  have hsign : ∀ {l : List Char} {P : Prop} [Decidable P], (∀ c ∈ l, c ≠ ' ') →
      ' ' ∉ (String.ofList (if P then '-' :: l else l)).toList := by
    intro l P _ hl hmem
    rw [String.toList_ofList] at hmem
    split at hmem
    · rcases List.mem_cons.mp hmem with h | hmem
      · exact absurd h (by decide)
      · exact hl _ hmem rfl
    · exact hl _ hmem rfl
  unfold formatDecimal
  refine hsign ?_
  by_cases hscale : d.scale ≤ 0
  · rw [if_pos hscale]
    exact happend (hnumber _) (hzeros _)
  · rw [if_neg hscale]
    have hall := happend (hzeros (d.scale.toNat + 1 - (toString d.mantissa.natAbs).toList.length))
      (hnumber d.mantissa.natAbs)
    dsimp only
    split
    · exact fun c hc ↦ hall c (List.mem_of_mem_take hc)
    · refine happend (fun c hc ↦ hall c (List.mem_of_mem_take hc)) fun c hc ↦ ?_
      rcases List.mem_cons.mp hc with rfl | hc
      · decide
      · exact hall c (List.mem_of_mem_drop ((List.rdropWhile_prefix _ _).subset hc))

/-- The text of an amount of money is that of its currency and that of its number. -/
theorem moneyText_eq_iff {m m' : MoneyValue} :
    m.currency ++ " " ++ formatDecimal m.amount = m'.currency ++ " " ++ formatDecimal m'.amount ↔
      m.currency = m'.currency ∧ formatDecimal m.amount = formatDecimal m'.amount := by
  refine ⟨fun h ↦ ?_, fun h ↦ by rw [h.1, h.2]⟩
  have hlist : m.currency.toList ++ ' ' :: (formatDecimal m.amount).toList =
      m'.currency.toList ++ ' ' :: (formatDecimal m'.amount).toList := by
    simpa using congrArg String.toList h
  obtain ⟨hcurrency, hamount⟩ := append_cons_inj_of_not_mem
    (space_not_mem_formatDecimal m.amount) (space_not_mem_formatDecimal m'.amount) hlist
  exact ⟨String.toList_inj.mp hcurrency, String.toList_inj.mp hamount⟩

end RulesForge
