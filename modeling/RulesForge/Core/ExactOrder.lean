import RulesForge.Core.Compare
import RulesForge.Library.NumeralOrder

/-!
# The order of exact numbers

Decimals, big integers and amounts of money are no numbers for `comparison_numeric`: the run-time
test compares their **texts** (`scalar_text`, `format_decimal` in `src/core/rfl_rete_defs.cpp`). The
text of a decimal is a numeral, `DecimalValue.numeral`, of the value of the decimal, and so the
texts of two exact numbers stand in the order of the numbers exactly where those of two numerals do
(`evaluateCompare_exact_iff`): not so for `9` and `10`, nor for `-1` and `-2`, nor for a zero with
a negative scale and any other zero.
-/

namespace RulesForge

/-! ### Values -/

/-- The number of digits of a decimal's whole part, as it is written. -/
def DecimalValue.width (d : DecimalValue) : ℕ :=
  max 1 ((Nat.toDigits 10 d.mantissa.natAbs).length - d.scale).toNat

/-- The whole part of a decimal, without its sign. -/
def DecimalValue.whole (d : DecimalValue) : ℕ :=
  d.mantissa.natAbs * 10 ^ (-d.scale).toNat / 10 ^ d.scale.toNat

/-- The rational number that a decimal denotes. -/
def DecimalValue.value (d : DecimalValue) : ℚ :=
  d.mantissa * 10 ^ (-d.scale).toNat / 10 ^ d.scale.toNat

/-- A decimal, or a big integer in canonical digits. -/
inductive ExactNumber where
  | decimal (d : DecimalValue)
  | bigInt (i : ℤ)

namespace ExactNumber

def toValue : ExactNumber → ConstraintValue
  | decimal d => .decimal d
  | bigInt i => .bigInt (toString i)

/-- The value of a number, its whole part, and the number of digits that this is written with. -/
def shape : ExactNumber → NumeralShape
  | decimal d => ⟨d.value, d.whole, d.width⟩
  | bigInt i => ⟨i, i.natAbs, (Nat.toDigits 10 i.natAbs).length⟩

/-- The rational number denoted. -/
def value (x : ExactNumber) : ℚ := x.shape.value

end ExactNumber

/-- What is compared: two exact numbers, or two amounts of money in one currency. -/
inductive ExactPair where
  | numbers (x y : ExactNumber)
  | money (currency : String) (a b : DecimalValue)

namespace ExactPair

def lhs : ExactPair → ConstraintValue
  | numbers x _ => x.toValue
  | money currency a _ => .money ⟨a, currency⟩

def rhs : ExactPair → ConstraintValue
  | numbers _ y => y.toValue
  | money currency _ b => .money ⟨b, currency⟩

def left : ExactPair → ExactNumber
  | numbers x _ => x
  | money _ a _ => .decimal a

def right : ExactPair → ExactNumber
  | numbers _ y => y
  | money _ _ b => .decimal b

end ExactPair

/-! ### The numeral of a decimal -/

namespace DecimalValue

variable (d : DecimalValue)

/-- The digits of a decimal with a positive scale, from the first digit before the point on. -/
def scaledDigits : List Char :=
  List.replicate (d.scale.toNat + 1 - (Nat.toDigits 10 d.mantissa.natAbs).length) '0' ++
    Nat.toDigits 10 d.mantissa.natAbs

def wholeDigits : List Char :=
  if d.scale ≤ 0 then
    Nat.toDigits 10 d.mantissa.natAbs ++ List.replicate (-d.scale).toNat '0'
  else d.scaledDigits.take (d.scaledDigits.length - d.scale.toNat)

def fractionDigits : List Char :=
  if d.scale ≤ 0 then []
  else (d.scaledDigits.drop (d.scaledDigits.length - d.scale.toNat)).rdropWhile (· = '0')

theorem digits_scaledDigits : Digits d.scaledDigits :=
  (digits_replicate _).append (digits_toDigits _)

theorem length_scaledDigits : d.scaledDigits.length =
    max (d.scale.toNat + 1) (Nat.toDigits 10 d.mantissa.natAbs).length := by
  rw [scaledDigits, List.length_append, List.length_replicate]
  omega

theorem numeralValue_scaledDigits : numeralValue d.scaledDigits = d.mantissa.natAbs := by
  rw [scaledDigits, numeralValue_append, numeralValue_replicate, numeralValue_toDigits, Nat.mul_zero,
    Nat.zero_add]

theorem digits_wholeDigits : Digits d.wholeDigits := by
  unfold wholeDigits
  split
  · exact (digits_toDigits _).append (digits_replicate _)
  · exact fun c hc ↦ d.digits_scaledDigits c (List.mem_of_mem_take hc)

theorem digits_fractionDigits : Digits d.fractionDigits := by
  unfold fractionDigits
  split
  · exact nofun
  · exact fun c hc ↦ d.digits_scaledDigits c
      (List.mem_of_mem_drop ((List.rdropWhile_prefix _ _).subset hc))

theorem stripped_fractionDigits : Stripped d.fractionDigits := by
  unfold fractionDigits
  split
  · exact nofun
  · intro c hc
    generalize d.scaledDigits.drop _ = digits at hc
    have hne : digits.rdropWhile (· = '0') ≠ [] := by
      intro hnil
      rw [hnil] at hc
      exact nomatch hc
    have hlast := List.rdropWhile_last_not (· = '0') digits hne
    rw [List.getLast?_eq_some_getLast hne, Option.mem_def, Option.some.injEq] at hc
    simpa [hc] using hlast

theorem length_wholeDigits : d.wholeDigits.length = d.width := by
  have hpos : 0 < (Nat.toDigits 10 d.mantissa.natAbs).length := Nat.length_toDigits_pos
  unfold wholeDigits width
  split
  · rw [List.length_append, List.length_replicate]
    omega
  · rw [List.length_take, length_scaledDigits]
    omega

theorem numeralValue_wholeDigits : numeralValue d.wholeDigits = d.whole := by
  unfold wholeDigits whole
  split
  · next hscale =>
    have hzero : d.scale.toNat = 0 := by omega
    rw [numeralValue_append, numeralValue_replicate, numeralValue_toDigits, List.length_replicate,
      hzero, pow_zero, Nat.div_one, Nat.add_zero, Nat.mul_comm]
  · next hscale =>
    have hzero : (-d.scale).toNat = 0 := by omega
    have hlength : d.scaledDigits.length - (d.scaledDigits.length - d.scale.toNat) =
        d.scale.toNat := by
      rw [length_scaledDigits]
      omega
    rw [numeralValue_take d.digits_scaledDigits, numeralValue_scaledDigits, hlength, hzero, pow_zero,
      Nat.mul_one]

/-- Dropping the zeros at the end of the fraction keeps its value. -/
theorem fractionValue_rdropWhile (f : List Char) :
    fractionValue (f.rdropWhile (· = '0')) = fractionValue f := by
  induction f using List.reverseRecOn with
  | nil => rfl
  | append_singleton f c ih =>
    rw [List.rdropWhile_concat]
    by_cases hc : c = '0'
    · rw [if_pos (by simpa using hc), ih, hc]
      exact (fractionValue_append_zeros f 1).symm
    · rw [if_neg (by simpa using hc)]

/-- Whole part and fraction make up the number without its sign. -/
theorem magnitude_eq : (numeralValue d.wholeDigits : ℚ) + fractionValue d.fractionDigits =
    d.mantissa.natAbs * 10 ^ (-d.scale).toNat / 10 ^ d.scale.toNat := by
  by_cases hscale : d.scale ≤ 0
  · have hzero : d.scale.toNat = 0 := by omega
    rw [numeralValue_wholeDigits, whole, fractionDigits, if_pos hscale, hzero]
    simp [fractionValue]
  · have hzero : (-d.scale).toNat = 0 := by omega
    have hlength : d.scaledDigits.length - (d.scaledDigits.length - d.scale.toNat) =
        d.scale.toNat := by
      rw [length_scaledDigits]
      omega
    -- The digits before and after the point are those of the mantissa.
    have hsplit := congrArg numeralValue
      (List.take_append_drop (d.scaledDigits.length - d.scale.toNat) d.scaledDigits)
    rw [numeralValue_append, numeralValue_scaledDigits, List.length_drop, hlength] at hsplit
    have hcast : (10 : ℚ) ^ d.scale.toNat *
          numeralValue (d.scaledDigits.take (d.scaledDigits.length - d.scale.toNat)) +
        numeralValue (d.scaledDigits.drop (d.scaledDigits.length - d.scale.toNat)) =
        d.mantissa.natAbs := by
      exact_mod_cast hsplit
    rw [wholeDigits, if_neg hscale, fractionDigits, if_neg hscale, fractionValue_rdropWhile,
      fractionValue_eq, List.length_drop, hlength, hzero, pow_zero, mul_one, ← hcast]
    field_simp

theorem magnitude_pos (h : d.mantissa < 0) :
    0 < (numeralValue d.wholeDigits : ℚ) + fractionValue d.fractionDigits := by
  rw [magnitude_eq]
  have hpos : (0 : ℚ) < d.mantissa.natAbs := by
    exact_mod_cast Int.natAbs_pos.mpr h.ne
  positivity

/-- The number that `format_decimal` writes. -/
def numeral : Numeral where
  negative := decide (d.mantissa < 0)
  whole := d.wholeDigits
  fraction := d.fractionDigits
  digits_whole := d.digits_wholeDigits
  whole_ne_nil := by
    rw [← List.length_pos_iff, length_wholeDigits]
    exact Nat.lt_of_lt_of_le Nat.one_pos (le_max_left _ _)
  digits_fraction := d.digits_fractionDigits
  stripped := d.stripped_fractionDigits
  pos_of_negative h := d.magnitude_pos (of_decide_eq_true h)

theorem shape_numeral : d.numeral.shape = (ExactNumber.decimal d).shape := by
  have hvalue : d.numeral.value = d.value := by
    unfold Numeral.value Numeral.magnitude value
    show (if decide (d.mantissa < 0) = true then
      -((numeralValue d.wholeDigits : ℚ) + fractionValue d.fractionDigits)
      else (numeralValue d.wholeDigits : ℚ) + fractionValue d.fractionDigits) = _
    rw [magnitude_eq]
    by_cases hneg : d.mantissa < 0
    · have habs : (d.mantissa : ℚ) = -(d.mantissa.natAbs : ℚ) := by
        have : d.mantissa = -(d.mantissa.natAbs : ℤ) := by omega
        exact_mod_cast this
      rw [if_pos (decide_eq_true hneg), habs]
      ring
    · have habs : (d.mantissa : ℚ) = (d.mantissa.natAbs : ℚ) := by
        have : d.mantissa = (d.mantissa.natAbs : ℤ) := by omega
        exact (congrArg Int.cast this).trans (Int.cast_natCast _)
      rw [if_neg (by simpa using hneg), habs]
  exact NumeralShape.ext hvalue d.numeralValue_wholeDigits d.length_wholeDigits

/-- **`format_decimal` writes the numeral.** -/
theorem formatDecimal_toList : (formatDecimal d).toList = d.numeral.text := by
  have hdigits : (if d.scale ≤ 0 then
      Nat.toDigits 10 d.mantissa.natAbs ++ List.replicate (-d.scale).toNat '0'
    else
      let whole := d.scaledDigits.take (d.scaledDigits.length - d.scale.toNat)
      let fraction :=
        (d.scaledDigits.drop (d.scaledDigits.length - d.scale.toNat)).rdropWhile (· = '0')
      if fraction = [] then whole else whole ++ '.' :: fraction) = d.numeral.digits := by
    show _ = d.wholeDigits ++ pointed d.fractionDigits
    unfold wholeDigits fractionDigits pointed
    by_cases hscale : d.scale ≤ 0
    · simp [hscale]
    · rw [if_neg hscale, if_neg hscale, if_neg hscale]
      dsimp only
      split <;> simp
  have hzero : d.mantissa < 0 → d.numeral.digits ≠ ['0'] := by
    intro hneg hdigits
    have hwhole : d.wholeDigits ++ pointed d.fractionDigits = ['0'] := hdigits
    have hpos := d.magnitude_pos hneg
    have hne : d.wholeDigits ≠ [] := d.numeral.whole_ne_nil
    obtain ⟨c, whole, hcons⟩ := List.exists_cons_of_ne_nil hne
    rw [hcons, List.cons_append, List.cons.injEq, List.append_eq_nil_iff] at hwhole
    obtain ⟨rfl, rfl, hpointed⟩ := hwhole
    have hfraction : d.fractionDigits = [] := by
      by_contra hne
      rw [pointed, if_neg hne] at hpointed
      exact List.cons_ne_nil _ _ hpointed
    have hvalue : (numeralValue ['0'] : ℚ) + fractionValue [] = 0 := by
      rw [show numeralValue ['0'] = 0 from rfl, Nat.cast_zero, zero_add]
      rfl
    rw [hcons, hfraction, hvalue] at hpos
    exact lt_irrefl _ hpos
  have hmantissa : (toString d.mantissa.natAbs).toList = Nat.toDigits 10 d.mantissa.natAbs :=
    Nat.toList_repr
  have hunfold : (formatDecimal d).toList =
      if d.mantissa < 0 ∧ d.numeral.digits ≠ ['0'] then '-' :: d.numeral.digits
      else d.numeral.digits := by
    rw [← hdigits, formatDecimal, hmantissa, String.toList_ofList]
    rfl
  rw [hunfold]
  show _ = if decide (d.mantissa < 0) = true then _ else _
  by_cases hneg : d.mantissa < 0
  · rw [if_pos ⟨hneg, hzero hneg⟩, if_pos (decide_eq_true hneg)]
  · rw [if_neg fun h ↦ hneg h.1, if_neg (by simpa using hneg)]

end DecimalValue

/-! ### The numeral of a big integer -/

/-- The numeral of an integer. -/
def intNumeral (i : ℤ) : Numeral where
  negative := decide (i < 0)
  whole := Nat.toDigits 10 i.natAbs
  fraction := []
  digits_whole := digits_toDigits _
  whole_ne_nil := List.length_pos_iff.mp Nat.length_toDigits_pos
  digits_fraction := nofun
  stripped := nofun
  pos_of_negative h := by
    have hpos : (0 : ℚ) < i.natAbs := by
      exact_mod_cast Int.natAbs_pos.mpr (of_decide_eq_true h).ne
    simpa [fractionValue] using hpos

theorem shape_intNumeral (i : ℤ) : (intNumeral i).shape = (ExactNumber.bigInt i).shape := by
  have hmagnitude : (intNumeral i).magnitude = i.natAbs := by
    simp [Numeral.magnitude, intNumeral, fractionValue]
  have hvalue : (intNumeral i).value = i := by
    show (if decide (i < 0) = true then -(intNumeral i).magnitude else (intNumeral i).magnitude) = _
    rw [hmagnitude]
    by_cases hneg : i < 0
    · have habs : -(i.natAbs : ℤ) = i := by omega
      rw [if_pos (decide_eq_true hneg)]
      exact_mod_cast habs
    · have habs : (i.natAbs : ℤ) = i := by omega
      rw [if_neg (by simpa using hneg)]
      exact (Int.cast_natCast _).symm.trans (congrArg Int.cast habs)
  exact NumeralShape.ext hvalue (numeralValue_toDigits _) rfl

theorem toString_toList_eq_text (i : ℤ) : (toString i).toList = (intNumeral i).text := by
  rw [toString_toList_int]
  cases i with
  | ofNat n =>
    show _ = if decide (Int.ofNat n < 0) = true then _ else _
    rw [if_neg (by simp)]
    exact (List.append_nil _).symm
  | negSucc n =>
    show _ = if decide (Int.negSucc n < 0) = true then _ else _
    rw [if_pos (by simp [Int.negSucc_lt_zero])]
    exact congrArg ('-' :: ·) (List.append_nil _).symm

/-! ### Comparison -/

namespace ExactNumber

def numeral : ExactNumber → Numeral
  | decimal d => d.numeral
  | bigInt i => intNumeral i

theorem shape_numeral (x : ExactNumber) : x.numeral.shape = x.shape := by
  cases x with
  | decimal d => exact d.shape_numeral
  | bigInt i => exact shape_intNumeral i

/-- The text of an exact number. -/
theorem exists_scalarText (x : ExactNumber) :
    ∃ s, scalarText x.toValue = some s ∧ s.toList = x.numeral.text := by
  cases x with
  | decimal d => exact ⟨_, rfl, d.formatDecimal_toList⟩
  | bigInt i => exact ⟨_, rfl, toString_toList_eq_text i⟩

end ExactNumber

/-- What decides the comparisons of a pair is the order of the two numerals. -/
theorem ExactPair.evaluateCompare_eq (factId : FactPtr → ℤ) (p : ExactPair) {op : CompareOp}
    (hop : op.IsComparison) : evaluateCompare factId op p.lhs p.rhs =
      evaluateOrderedCompare op (compare p.left.numeral.text p.right.numeral.text) := by
  cases p with
  | numbers x y =>
    obtain ⟨s, hs, hslist⟩ := x.exists_scalarText
    obtain ⟨t, ht, htlist⟩ := y.exists_scalarText
    have hnumber : comparisonNumeric x.toValue = none := by cases x <;> rfl
    rw [show ExactPair.lhs (.numbers x y) = x.toValue from rfl,
      show ExactPair.rhs (.numbers x y) = y.toValue from rfl,
      evaluateCompare_of_texts factId hop hnumber hs ht, compare_string, hslist, htlist]
    rfl
  | money currency a b =>
    have htext : ∀ d : DecimalValue, (currency ++ " " ++ formatDecimal d).toList =
        (currency ++ " ").toList ++ d.numeral.text := by
      intro d
      rw [String.toList_append, d.formatDecimal_toList]
    rw [show ExactPair.lhs (.money currency a b) = .money ⟨a, currency⟩ from rfl,
      show ExactPair.rhs (.money currency a b) = .money ⟨b, currency⟩ from rfl,
      evaluateCompare_of_texts factId hop rfl rfl rfl, compare_string, htext, htext,
      compare_append_self]
    rfl

/-- **When exact numbers are compared by value.** For two decimals or big integers, or two amounts of
money in one currency, all six comparisons agree with the rational numbers denoted if and only if
the numbers are such that their texts keep the order. -/
theorem evaluateCompare_exact_iff (factId : FactPtr → ℤ) (p : ExactPair) :
    (∀ op : CompareOp, op.IsComparison →
      (evaluateCompare factId op p.lhs p.rhs = true ↔ op.Relates p.left.value p.right.value)) ↔
      p.left.shape.KeepsOrder p.right.shape := by
  have hvalue : ∀ x : ExactNumber, x.numeral.value = x.value :=
    fun x ↦ congrArg NumeralShape.value x.shape_numeral
  rw [← p.left.shape_numeral, ← p.right.shape_numeral, ← Numeral.compare_text_iff, hvalue, hvalue,
    ← forall_relates_iff]
  refine forall₂_congr fun op hop ↦ ?_
  rw [p.evaluateCompare_eq factId hop]

/-- Nine is not below ten. -/
theorem evaluateCompare_nine_ten :
    CompareOp.Relates .lt (ExactNumber.decimal ⟨9, 0⟩).value (ExactNumber.decimal ⟨10, 0⟩).value ∧
      evaluateCompare (fun _ ↦ 0) .lt (.decimal ⟨9, 0⟩) (.decimal ⟨10, 0⟩) = false := by
  refine ⟨?_, by decide⟩
  show ((9 : ℤ) : ℚ) * 10 ^ 0 / 10 ^ 0 < ((10 : ℤ) : ℚ) * 10 ^ 0 / 10 ^ 0
  norm_num

end RulesForge
