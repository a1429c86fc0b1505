import RulesForge.Parser.ConstraintLiterals

/-!
# Windows of temporal constraints

`within 60s of $e` holds of two events whose time stamps are at most that far apart. The literal
is read by `parse_duration_ms` (`parser/rfl_grammar_lemon.y`), and the distance taken by
`evaluate_temporal` (`src/rete/rete_node.cpp`), both on 64 bits.

A distance from `2^63` on is taken for another one, and so is a literal that is out of range.
-/

namespace RulesForge

/-! ### Literals -/

inductive DurationUnit where
  | hours | minutes | seconds | milliseconds
  deriving DecidableEq

namespace DurationUnit

def suffix : DurationUnit → List Char
  | hours => ['h']
  | minutes => ['m']
  | seconds => ['s']
  | milliseconds => ['m', 's']

def factor : DurationUnit → ℤ
  | hours => 3600000
  | minutes => 60000
  | seconds => 1000
  | milliseconds => 1

theorem one_le_factor (unit : DurationUnit) : 1 ≤ unit.factor := by
  cases unit <;> decide

end DurationUnit

/-- `[0-9]+` with a unit. -/
structure DurationToken where
  digits : List Char
  unit : DurationUnit
  ne_nil : digits ≠ []
  isDigit : digits.all Char.isDigit = true

namespace DurationToken

def text (token : DurationToken) : List Char :=
  token.digits ++ token.unit.suffix

/-- What a token denotes. -/
def milliseconds (token : DurationToken) : ℤ :=
  signedValue false token.digits * token.unit.factor

end DurationToken

/-- A letter of the number of a duration. -/
def isDurationDigit (c : Char) : Bool :=
  c.isDigit || c = '-'

/-- `parse_duration_ms`. -/
def parseDurationMs (text : List Char) : ℤ :=
  let unit := text.dropWhile isDurationDigit
  if unit = [] then parseInt text
  else
    let val := parseInt (text.takeWhile isDurationDigit)
    if unit = ['h'] then wrap64 (val * 3600000)
    else if unit = ['m'] then wrap64 (val * 60000)
    else if unit = ['s'] then wrap64 (val * 1000)
    else val

/-- `within D of $e`. -/
def withinConstraint (token : DurationToken) (binding : String) : ParsedConstraint where
  temporalConstraint := some
    { op := .within
      lhsField := "timestamp"
      rhsBindingAndField := (binding, "timestamp")
      windowMs := parseDurationMs token.text }

section Durations

variable {token : DurationToken}

theorem wrap64_mem (i : ℤ) : fitsInt64 (wrap64 i) = true := by
  rw [fitsInt64, wrap64, decide_eq_true_eq]
  omega

theorem wrap64_eq_self {i : ℤ} (h : fitsInt64 i = true) : wrap64 i = i := by
  rw [fitsInt64, decide_eq_true_eq] at h
  rw [wrap64]
  omega

theorem fitsInt64_parseInt (text : List Char) : fitsInt64 (parseInt text) = true := by
  rw [parseInt]
  cases hread : stoll text with
  | none => rfl
  | some value =>
    show fitsInt64 value = true
    rw [fitsInt64, decide_eq_true_eq]
    -- the last test of `stoll` is the range
    have hrange := Option.ite_none_left_eq_some.mp hread
    obtain ⟨hnot, hvalue⟩ := hrange
    have hbounds := not_or.mp (not_or.mp hnot).2
    rw [Option.some.inj hvalue] at hbounds
    omega

/-- The number and the unit of a token are told apart. -/
theorem parseDurationMs_text (token : DurationToken) :
    parseDurationMs token.text = wrap64 (parseInt token.digits * token.unit.factor) := by
  obtain ⟨digits, unit, hne, hdigits⟩ := token
  have hall : ∀ c ∈ digits, isDurationDigit c = true := by
    intro c hc
    rw [isDurationDigit, List.all_eq_true.mp hdigits c hc, Bool.true_or]
  have hsuffix : unit.suffix.takeWhile isDurationDigit = [] ∧
      unit.suffix.dropWhile isDurationDigit = unit.suffix := by
    cases unit <;> decide
  have htake : (digits ++ unit.suffix).takeWhile isDurationDigit = digits := by
    rw [List.takeWhile_append_of_pos hall, hsuffix.1, List.append_nil]
  have hdrop : (digits ++ unit.suffix).dropWhile isDurationDigit = unit.suffix := by
    rw [List.dropWhile_append_of_pos hall, hsuffix.2]
  unfold parseDurationMs DurationToken.text
  simp only [htake, hdrop]
  cases unit with
  | hours => rfl
  | minutes => rfl
  | seconds => rfl
  | milliseconds =>
    show parseInt digits = wrap64 (parseInt digits * 1)
    rw [Int.mul_one, wrap64_eq_self (fitsInt64_parseInt digits)]

/-- **A duration literal denotes its milliseconds** exactly when they are in range. -/
theorem parseDurationMs_eq_iff (token : DurationToken) :
    parseDurationMs token.text = token.milliseconds ↔ fitsInt64 token.milliseconds = true := by
  rw [parseDurationMs_text]
  constructor
  · intro heq
    rw [← heq]
    exact wrap64_mem _
  · intro hfits
    have hvalue : 0 ≤ signedValue false token.digits := Int.natCast_nonneg _
    have hparse : parseInt token.digits = signedValue false token.digits := by
      refine (@parseInt_eq_iff false _ token.ne_nil token.isDigit).mpr ?_
      have hle : signedValue false token.digits ≤ token.milliseconds :=
        le_mul_of_one_le_right hvalue token.unit.one_le_factor
      rw [fitsInt64, decide_eq_true_eq] at hfits ⊢
      omega
    rw [hparse]
    exact wrap64_eq_self hfits

end Durations

/-! ### Distances -/

/-- What a difference is taken for: its absolute value, the most negative number, or what is left
of `2^64`. -/
theorem llabs_wrap64 {d : ℤ} (hd : |d| < 2 ^ 64) :
    |d| < 2 ^ 63 ∧ llabs (wrap64 d) = |d| ∨
      |d| = 2 ^ 63 ∧ llabs (wrap64 d) = -2 ^ 63 ∨
      2 ^ 63 < |d| ∧ llabs (wrap64 d) = 2 ^ 64 - |d| := by
  unfold wrap64 llabs
  generalize hw : (d + 2 ^ 63) % 2 ^ 64 - 2 ^ 63 = w
  rcases abs_cases d with ⟨habs, hsign⟩ | ⟨habs, hsign⟩
  all_goals
    rcases abs_cases w with ⟨hwrap, hside⟩ | ⟨hwrap, hside⟩
    all_goals
      rw [habs] at hd ⊢
      rw [hwrap]
      split
      all_goals omega

/-- **A window is exact** when the distance is less than `2^63`, or so far beyond it that what it is
taken for is out of the window too. -/
theorem evaluateTemporal_within_iff {lhs rhs windowMs : ℤ} (hlhs : fitsInt64 lhs = true)
    (hrhs : fitsInt64 rhs = true) (hwindow : fitsInt64 windowMs = true) (hpos : 0 ≤ windowMs) :
    (evaluateTemporal .within lhs rhs windowMs = true ↔ |lhs - rhs| ≤ windowMs) ↔
      |lhs - rhs| < 2 ^ 63 ∨ 2 ^ 63 < |lhs - rhs| ∧ windowMs < 2 ^ 64 - |lhs - rhs| := by
  rw [fitsInt64, decide_eq_true_eq] at hlhs hrhs hwindow
  have hcode : evaluateTemporal .within lhs rhs windowMs = true ↔
      llabs (wrap64 (lhs - rhs)) ≤ windowMs := by
    simp [evaluateTemporal, hpos]
  rw [hcode]
  have hrange : |lhs - rhs| < 2 ^ 64 := abs_lt.mpr (by omega)
  generalize lhs - rhs = d at hrange ⊢
  rcases llabs_wrap64 hrange with ⟨hsmall, hvalue⟩ | ⟨hborder, hvalue⟩ | ⟨hlarge, hvalue⟩
  · exact iff_of_true (by rw [hvalue]) (.inl hsmall)
  · rw [hvalue, hborder]
    omega
  · rw [hvalue]
    omega

/-- **Windows and durations**: a window is exact up to distances of `2^63`, and a duration, which
is never rejected, exactly in range. -/
theorem temporalWindows_exact_iff {lhs rhs windowMs : ℤ} (hlhs : fitsInt64 lhs = true)
    (hrhs : fitsInt64 rhs = true) (hwindow : fitsInt64 windowMs = true) (hpos : 0 ≤ windowMs)
    (token : DurationToken) (binding : String) :
    ((evaluateTemporal .within lhs rhs windowMs = true ↔ |lhs - rhs| ≤ windowMs) ↔
      |lhs - rhs| < 2 ^ 63 ∨ 2 ^ 63 < |lhs - rhs| ∧ windowMs < 2 ^ 64 - |lhs - rhs|) ∧
    ((withinConstraint token binding).temporalConstraint.map ParsedTemporalConstraint.windowMs =
        (if fitsInt64 token.milliseconds then some token.milliseconds else none) ↔
      fitsInt64 token.milliseconds = true) := by
  refine ⟨evaluateTemporal_within_iff hlhs hrhs hwindow hpos, ?_⟩
  show some (parseDurationMs token.text) = _ ↔ _
  by_cases hfits : fitsInt64 token.milliseconds = true
  · rw [if_pos hfits, Option.some_inj]
    exact parseDurationMs_eq_iff token
  · -- the literal is read as some number
    rw [if_neg hfits]
    exact iff_of_false (Option.some_ne_none _) hfits

/-- A minute between two events, and sixty seconds. -/
theorem temporalWindows_minute :
    fitsInt64 0 = true ∧ fitsInt64 60000 = true ∧ (0 : ℤ) ≤ 60000 ∧
    ((evaluateTemporal .within 60000 0 60000 = true ↔ |(60000 : ℤ) - 0| ≤ 60000) ↔
      |(60000 : ℤ) - 0| < 2 ^ 63 ∨
        2 ^ 63 < |(60000 : ℤ) - 0| ∧ (60000 : ℤ) < 2 ^ 64 - |(60000 : ℤ) - 0|) ∧
    (withinConstraint ⟨['6', '0'], .seconds, by decide, by decide⟩ "$e").temporalConstraint.map
        ParsedTemporalConstraint.windowMs = some 60000 := by
  refine ⟨by decide, by decide, by decide, ?_⟩
  obtain ⟨hexact, hduration⟩ := @temporalWindows_exact_iff 60000 0 60000 (by decide) (by decide)
    (by decide) (by decide) ⟨['6', '0'], .seconds, by decide, by decide⟩ "$e"
  have hvalue : (⟨['6', '0'], .seconds, by decide, by decide⟩ : DurationToken).milliseconds =
      60000 := by decide
  rw [hvalue] at hduration
  have hread := hduration.mpr (by decide)
  rw [if_pos (by decide)] at hread
  exact ⟨hexact, hread⟩

/-- Events `2^63` milliseconds apart are within a second, and a duration of `2^63` seconds is a
window of none. -/
theorem overflown_windows :
    (fitsInt64 (2 ^ 62) = true ∧ fitsInt64 (-2 ^ 62) = true ∧
      evaluateTemporal .within (2 ^ 62) (-2 ^ 62) 1000 = true ∧
      ¬|(2 : ℤ) ^ 62 - -2 ^ 62| ≤ 1000) ∧
    ∃ token : DurationToken, fitsInt64 token.milliseconds = false ∧
      (withinConstraint token "$e").temporalConstraint.map ParsedTemporalConstraint.windowMs =
        some 0 := by
  refine ⟨by decide, ⟨"9223372036854775808".toList, .seconds, by decide, by decide⟩, ?_⟩
  decide

end RulesForge
