import RulesForge.Core.TextForms
import RulesForge.Core.ValueEquality

/-!
# Equality in an index and equality in a test

An index finds a key by `ConstraintValueEquals`, a test compares by `evaluate_compare`. The
first tells alternatives apart, and the members of a value; the second looks at the number
behind a value, or at its text. On scalar values they differ on just the pairs of
`IndexMisses`, and there it is always the index that does not find what the test accepts
(`constraintValueEquals_iff_evaluateCompare`).
-/

namespace RulesForge

/-! ### The pairs an index does not find -/

/-- The mathematical integer behind a number. -/
def RuntimeNumeric.integer : RuntimeNumeric → Option ℤ
  | .signed i => some i
  | .unsigned n => some n
  | .double _ => none

namespace ConstraintValue

/-- The scalar alternatives, without doubles. -/
def isScalar : ConstraintValue → Bool
  | string _ | int64 _ | uint64 _ | bool _ | duration _ | enum _ | date _ | time _ | dateTime _
  | decimal _ | bigInt _ | money _ => true
  | _ => false

/-- The integer a value is compared by. -/
def integer (v : ConstraintValue) : Option ℤ :=
  (comparisonNumeric v).bind RuntimeNumeric.integer

/-- The alternative of a number; for an enumerator with its type and the alternative of the
number behind it. -/
def numberKind : ConstraintValue → ℕ × String × Bool
  | enum ⟨typeName, .signed _, _⟩ => (12, typeName, true)
  | enum ⟨typeName, .unsigned _, _⟩ => (12, typeName, false)
  | v => (v.index, "", false)

end ConstraintValue

open ConstraintValue

/-- The pairs of scalar values that a test calls equal and an index does not. -/
inductive IndexMisses : ConstraintValue → ConstraintValue → Prop
  /-- The same integer as different kinds of number. -/
  | number {a b i} : a.integer = some i → b.integer = some i → a.numberKind ≠ b.numberKind →
      IndexMisses a b
  /-- The same text of different alternatives, one of them no number. -/
  | text {a b t} : a.integer = none ∨ b.integer = none → scalarText a = some t →
      scalarText b = some t → a.index ≠ b.index → IndexMisses a b
  /-- The same decimal number with another scale. -/
  | decimal {d d'} : formatDecimal d = formatDecimal d' → d ≠ d' →
      IndexMisses (.decimal d) (.decimal d')
  /-- The same amount of the same currency with another scale. -/
  | money {m m'} : m.currency = m'.currency → formatDecimal m.amount = formatDecimal m'.amount →
      m.amount ≠ m'.amount → IndexMisses (.money m) (.money m')
  /-- The same date-time without a time zone, with another offset on record. -/
  | dateTime {t t' : DateTimeValue} :
      { t with tzOffsetMinutes := 0 } = { t' with tzOffsetMinutes := 0 } →
      t.hasTimezone = false → t.tzOffsetMinutes ≠ t'.tzOffsetMinutes →
      IndexMisses (.dateTime t) (.dateTime t')

/-! ### Numbers -/

section Numbers

variable {a b : ConstraintValue} {i j : ℤ} {x y : RuntimeNumeric}

theorem compare_natCast (m n : ℕ) : compare m n = compare (m : ℤ) (n : ℤ) := by
  rcases lt_trichotomy m n with h | rfl | h
  · rw [compare_lt_iff_lt.mpr h, compare_lt_iff_lt.mpr (by omega)]
  · rw [compare_eq_iff_eq.mpr rfl, compare_eq_iff_eq.mpr rfl]
  · rw [compare_gt_iff_gt.mpr h, compare_gt_iff_gt.mpr (by omega)]

/-- Numbers are compared as the integers behind them. -/
theorem RuntimeNumeric.compareNumeric_eq_compare (hx : x.integer = some i)
    (hy : y.integer = some j) : compareNumeric x y = compare i j := by
  cases x with
  | double d => cases hx
  | signed x =>
    cases hx
    cases y with
    | double d => cases hy
    | signed y =>
      cases hy
      rfl
    | unsigned n =>
      cases hy
      by_cases hneg : i < 0
      · simp only [compareNumeric, if_pos hneg]
        exact (compare_lt_iff_lt.mpr (by omega)).symm
      · simp only [compareNumeric, if_neg hneg]
        obtain ⟨m, rfl⟩ := Int.eq_ofNat_of_zero_le (by omega : 0 ≤ i)
        exact compare_natCast m n
  | unsigned m =>
    cases hx
    cases y with
    | double d => cases hy
    | signed y =>
      cases hy
      by_cases hneg : j < 0
      · simp only [compareNumeric, if_pos hneg]
        exact (compare_gt_iff_gt.mpr (by omega)).symm
      · simp only [compareNumeric, if_neg hneg]
        obtain ⟨n, rfl⟩ := Int.eq_ofNat_of_zero_le (by omega : 0 ≤ j)
        exact compare_natCast m n
    | unsigned n =>
      cases hy
      exact compare_natCast m n

theorem exists_comparisonNumeric (h : a.integer = some i) :
    ∃ x, comparisonNumeric a = some x ∧ x.integer = some i := by
  cases hx : comparisonNumeric a with
  | none => simp [integer, hx] at h
  | some x => exact ⟨x, rfl, by simpa [integer, hx] using h⟩

theorem evaluateCompare_of_integers (factId : FactPtr → ℤ) {op : CompareOp}
    (hop : op.IsComparison) (ha : a.integer = some i) (hb : b.integer = some j) :
    evaluateCompare factId op a b = evaluateOrderedCompare op (compare i j) := by
  obtain ⟨x, hx, hxi⟩ := exists_comparisonNumeric ha
  obtain ⟨y, hy, hyj⟩ := exists_comparisonNumeric hb
  have hflag : op ≠ .hasFlag := by
    rintro rfl
    exact hop
  simp only [evaluateCompare, if_neg hflag, hx, hy,
    RuntimeNumeric.compareNumeric_eq_compare hxi hyj]

theorem evaluateCompare_eq_of_integers (factId : FactPtr → ℤ) (ha : a.integer = some i)
    (hb : b.integer = some j) : evaluateCompare factId .eq a b = true ↔ i = j := by
  have hop : CompareOp.eq.IsComparison := trivial
  rw [evaluateCompare_of_integers factId hop ha hb]
  simp [evaluateOrderedCompare]

theorem numberKind_fst (v : ConstraintValue) : v.numberKind.1 = v.index := by
  cases v with
  | enum e =>
    obtain ⟨typeName, value, itemName⟩ := e
    cases value <;> rfl
  | _ => rfl

theorem numberKind_ne_of_index_ne (h : a.index ≠ b.index) : a.numberKind ≠ b.numberKind := by
  intro hkind
  rw [← numberKind_fst, hkind, numberKind_fst] at h
  exact h rfl

/-- A number is determined by its kind and its integer, but for the name of an enumerator's
item. -/
theorem canonical_eq_iff_of_integers (ha : a.integer = some i) (hb : b.integer = some j) :
    a.canonical = b.canonical ↔ i = j ∧ a.numberKind = b.numberKind := by
  by_cases hindex : a.index = b.index
  swap
  · refine iff_of_false (fun h ↦ hindex ?_) fun h ↦ numberKind_ne_of_index_ne hindex h.2
    rw [← index_canonical a, h, index_canonical]
  cases a with
  | int64 x =>
    cases b with
    | int64 y => cases ha; cases hb; simp [canonical, numberKind, index]
    | _ => cases hindex
  | uint64 x =>
    cases b with
    | uint64 y => cases ha; cases hb; simp [canonical, numberKind, index]
    | _ => cases hindex
  | duration x =>
    cases b with
    | duration y => cases ha; cases hb; simp [canonical, numberKind, index]
    | _ => cases hindex
  | enum e =>
    cases b with
    | enum e' =>
      obtain ⟨typeName, value, itemName⟩ := e
      obtain ⟨typeName', value', itemName'⟩ := e'
      cases value <;> cases ha <;> cases value' <;> cases hb <;>
        simp [canonical, numberKind, and_comm]
    | _ => cases hindex
  | _ => cases ha

theorem isPlain_of_integer (ha : a.integer = some i) : a.isPlain = true := by
  cases a <;> first | rfl | cases ha

theorem constraintValueEquals_of_integers (factId : FactPtr → ℤ) (ha : a.integer = some i)
    (hb : b.integer = some j) :
    constraintValueEquals factId a b = true ↔ i = j ∧ a.numberKind = b.numberKind := by
  rw [constraintValueEquals_iff factId (isPlain_of_integer ha) (isPlain_of_integer hb)]
  exact canonical_eq_iff_of_integers ha hb

end Numbers

/-! ### Texts -/

section Texts

variable {a b : ConstraintValue} {s t : String}

/-- A test on values that only have an equality. -/
def equalityTest (op : CompareOp) (equal : Bool) : Bool :=
  match op with
  | .eq => equal
  | .ne => !equal
  | _ => false

/-- Unless both sides are numbers, texts decide where both sides have one, and equality
elsewhere. -/
theorem evaluateCompare_of_not_numbers (factId : FactPtr → ℤ) {op : CompareOp}
    (hop : op.IsComparison)
    (hnumber : comparisonNumeric a = none ∨ comparisonNumeric b = none) :
    evaluateCompare factId op a b =
      match scalarText a, scalarText b with
      | some s, some t => evaluateOrderedCompare op (compare s t)
      | _, _ => equalityTest op (constraintValueEquals factId a b) := by
  have hflag : op ≠ .hasFlag := by
    rintro rfl
    exact hop
  have hlength : op ≠ .lengthIs := by
    rintro rfl
    exact hop
  simp only [evaluateCompare, if_neg hflag, ← evaluateTextCompare_eq_ordered hop]
  rcases hnumber with hnone | hnone
  · simp only [hnone]
    cases op <;> first | exact hop.elim | cases a <;> rfl
  · simp only [hnone]
    cases comparisonNumeric a <;> cases op <;> first | exact hop.elim | cases a <;> rfl

theorem evaluateCompare_eq_of_not_integers (factId : FactPtr → ℤ)
    (hnumber : comparisonNumeric a = none ∨ comparisonNumeric b = none) :
    evaluateCompare factId .eq a b = true ↔
      (∃ s, scalarText a = some s ∧ scalarText b = some s) ∨
        ((scalarText a = none ∨ scalarText b = none) ∧ constraintValueEquals factId a b = true) := by
  have hop : CompareOp.eq.IsComparison := trivial
  rw [evaluateCompare_of_not_numbers factId hop hnumber]
  cases hs : scalarText a with
  | none => simp [equalityTest]
  | some s =>
    cases ht : scalarText b with
    | none => simp [equalityTest]
    | some t =>
      have hcompare : evaluateOrderedCompare .eq (compare s t) = true ↔ s = t := by
        simp [evaluateOrderedCompare]
      show evaluateOrderedCompare .eq (compare s t) = true ↔ _
      rw [hcompare]
      refine ⟨fun h ↦ .inl ⟨s, rfl, by rw [h]⟩, ?_⟩
      rintro (⟨u, hu, hu'⟩ | ⟨hnone | hnone, -⟩)
      · exact Option.some_inj.mp (hu.trans hu'.symm)
      · cases hnone
      · cases hnone

/-- Among scalar values the numbers are those with an integer. -/
theorem comparisonNumeric_eq_none (ha : a.isScalar = true) (h : a.integer = none) :
    comparisonNumeric a = none := by
  cases a with
  | double d => cases ha
  | enum e =>
    obtain ⟨typeName, value, itemName⟩ := e
    cases value <;> cases h
  | _ => first | rfl | cases h

/-- An index finds every value under itself. -/
theorem IndexMisses.irrefl (a : ConstraintValue) : ¬ IndexMisses a a := by
  intro h
  cases h with
  | number _ _ hkind => exact hkind rfl
  | text _ _ _ hindex => exact hindex rfl
  | decimal _ hne => exact hne rfl
  | money _ _ hne => exact hne rfl
  | dateTime _ _ hne => exact hne rfl

theorem indexMisses_decimal_iff {d d' : DecimalValue} :
    IndexMisses (.decimal d) (.decimal d') ↔ formatDecimal d = formatDecimal d' ∧ d ≠ d' := by
  refine ⟨fun h ↦ ?_, fun h ↦ .decimal h.1 h.2⟩
  cases h with
  | number ha => cases ha
  | text _ _ _ hindex => exact absurd rfl hindex
  | decimal htext hne => exact ⟨htext, hne⟩

theorem indexMisses_money_iff {m m' : MoneyValue} :
    IndexMisses (.money m) (.money m') ↔ m.currency = m'.currency ∧
      formatDecimal m.amount = formatDecimal m'.amount ∧ m.amount ≠ m'.amount := by
  refine ⟨fun h ↦ ?_, fun h ↦ .money h.1 h.2.1 h.2.2⟩
  cases h with
  | number ha => cases ha
  | text _ _ _ hindex => exact absurd rfl hindex
  | money hcurrency htext hne => exact ⟨hcurrency, htext, hne⟩

theorem indexMisses_dateTime_iff {t t' : DateTimeValue} :
    IndexMisses (.dateTime t) (.dateTime t') ↔
      { t with tzOffsetMinutes := 0 } = { t' with tzOffsetMinutes := 0 } ∧
        t.hasTimezone = false ∧ t.tzOffsetMinutes ≠ t'.tzOffsetMinutes := by
  refine ⟨fun h ↦ ?_, fun h ↦ .dateTime h.1 h.2.1 h.2.2⟩
  cases h with
  | number ha => cases ha
  | text _ _ _ hindex => exact absurd rfl hindex
  | dateTime hmembers hzone hne => exact ⟨hmembers, hzone, hne⟩

/-- Scalar values of one alternative with the same text are the same value, but for the kinds of
`IndexMisses`. -/
theorem constraintValueEquals_of_texts (factId : FactPtr → ℤ) (hindex : a.index = b.index)
    (hnumber : a.integer = none ∨ b.integer = none) (hs : scalarText a = some s)
    (ht : scalarText b = some s) :
    constraintValueEquals factId a b = true ↔ ¬ IndexMisses a b := by
  have htext : scalarText a = scalarText b := hs.trans ht.symm
  -- Where the text is the whole value, the values are equal, and no pair is missed.
  have hsame : ∀ {a b : ConstraintValue}, a.isPlain = true → a = b →
      (constraintValueEquals factId a b = true ↔ ¬ IndexMisses a b) := by
    rintro a b hplain rfl
    exact iff_of_true ((constraintValueEquals_iff factId hplain hplain).mpr rfl)
      (IndexMisses.irrefl a)
  cases a with
  | string x =>
    cases b with
    | string y => exact hsame rfl (congrArg _ (Option.some_inj.mp htext))
    | _ => cases hindex
  | bigInt x =>
    cases b with
    | bigInt y => exact hsame rfl (congrArg _ (Option.some_inj.mp htext))
    | _ => cases hindex
  | date x =>
    cases b with
    | date y => exact hsame rfl (congrArg _ (formatDate_inj.mp (Option.some_inj.mp htext)))
    | _ => cases hindex
  | time x =>
    cases b with
    | time y => exact hsame rfl (congrArg _ (formatTime_inj.mp (Option.some_inj.mp htext)))
    | _ => cases hindex
  | dateTime x =>
    cases b with
    | dateTime y =>
      obtain ⟨hmembers, hoffset⟩ := formatDatetime_eq_iff.mp (Option.some_inj.mp htext)
      have hxy : x = y ↔ x.tzOffsetMinutes = y.tzOffsetMinutes := by
        refine ⟨fun h ↦ by rw [h], fun h ↦ ?_⟩
        cases x
        cases y
        simp_all
      rw [constraintValueEquals_iff factId rfl rfl, indexMisses_dateTime_iff]
      simp only [canonical, ConstraintValue.dateTime.injEq, hxy, hmembers, true_and, not_and,
        not_not]
      refine ⟨fun h _ ↦ h, fun h ↦ ?_⟩
      cases hzone : x.hasTimezone with
      | true => exact hoffset hzone
      | false => exact h hzone
    | _ => cases hindex
  | decimal x =>
    cases b with
    | decimal y =>
      rw [constraintValueEquals_iff factId rfl rfl, indexMisses_decimal_iff]
      simp [canonical, Option.some_inj.mp htext]
    | _ => cases hindex
  | money x =>
    cases b with
    | money y =>
      obtain ⟨hcurrency, hamount⟩ := moneyText_eq_iff.mp (Option.some_inj.mp htext)
      rw [constraintValueEquals_iff factId rfl rfl, indexMisses_money_iff]
      cases x
      cases y
      simp_all [canonical]
    | _ => cases hindex
  | enum e =>
    cases b with
    | enum e' =>
      obtain ⟨typeName, value, itemName⟩ := e
      obtain ⟨typeName', value', itemName'⟩ := e'
      rcases hnumber with hnone | hnone
      · cases value <;> cases hnone
      · cases value' <;> cases hnone
    | _ => cases hindex
  | _ => cases hs

end Texts

/-! ### Index and test -/

section Agreement

variable {a b : ConstraintValue} {s : String} (factId : FactPtr → ℤ)

theorem comparisonNumeric_eq_none_or (ha : a.isScalar = true) (hb : b.isScalar = true)
    (hnumber : a.integer = none ∨ b.integer = none) :
    comparisonNumeric a = none ∨ comparisonNumeric b = none :=
  hnumber.imp (comparisonNumeric_eq_none ha) (comparisonNumeric_eq_none hb)

theorem integers_or (a b : ConstraintValue) :
    (∃ i j, a.integer = some i ∧ b.integer = some j) ∨ a.integer = none ∨ b.integer = none := by
  cases hi : a.integer with
  | none => exact .inr (.inl rfl)
  | some i =>
    cases hj : b.integer with
    | none => exact .inr (.inr rfl)
    | some j => exact .inl ⟨i, j, rfl, rfl⟩

/-- Values of different alternatives have different keys. -/
theorem index_eq_of_constraintValueEquals (h : constraintValueEquals factId a b = true) :
    a.index = b.index :=
  compareValues_eq_index factId (by simpa [constraintValueEquals] using h)

theorem isPlain_of_isScalar (ha : a.isScalar = true) : a.isPlain = true := by
  cases a <;> first | rfl | cases ha

/-- Scalar values with the same key that are not both numbers are the same value. -/
theorem eq_of_constraintValueEquals (ha : a.isScalar = true) (hb : b.isScalar = true)
    (hnumber : a.integer = none ∨ b.integer = none)
    (h : constraintValueEquals factId a b = true) : a = b := by
  have hindex := index_eq_of_constraintValueEquals factId h
  have hcanonical :=
    (constraintValueEquals_iff factId (isPlain_of_isScalar ha) (isPlain_of_isScalar hb)).mp h
  have hself : ∀ {v : ConstraintValue}, v.isScalar = true → v.index ≠ 12 → v.canonical = v := by
    intro v hv hne
    cases v <;> first | rfl | exact absurd rfl hne | cases hv
  by_cases henum : a.index = 12
  · have hinteger : ∀ {v : ConstraintValue}, v.index = 12 → v.integer ≠ none := by
      intro v hv
      cases v with
      | enum e =>
        obtain ⟨typeName, value, itemName⟩ := e
        cases value <;> exact nofun
      | _ => cases hv
    rcases hnumber with hnone | hnone
    · exact absurd hnone (hinteger henum)
    · exact absurd hnone (hinteger (hindex ▸ henum))
  · rwa [hself ha henum, hself hb (hindex ▸ henum)] at hcanonical

/-- What an index finds, the test accepts. -/
theorem evaluateCompare_of_constraintValueEquals (ha : a.isScalar = true) (hb : b.isScalar = true)
    (h : constraintValueEquals factId a b = true) : evaluateCompare factId .eq a b = true := by
  rcases integers_or a b with ⟨i, j, hi, hj⟩ | hnumber
  · rw [evaluateCompare_eq_of_integers factId hi hj]
    exact ((constraintValueEquals_of_integers factId hi hj).mp h).1
  · rw [evaluateCompare_eq_of_not_integers factId (comparisonNumeric_eq_none_or ha hb hnumber)]
    have hab := eq_of_constraintValueEquals factId ha hb hnumber h
    subst hab
    cases hs : scalarText a with
    | none => exact .inr ⟨.inl rfl, h⟩
    | some s => exact .inl ⟨s, rfl, rfl⟩

/-- The texts of a missed pair are the same, unless both sides are numbers. -/
theorem IndexMisses.integers_or_text (h : IndexMisses a b) :
    (∃ i, a.integer = some i ∧ b.integer = some i ∧ a.numberKind ≠ b.numberKind) ∨
      (a.integer = none ∨ b.integer = none) ∧ ∃ s, scalarText a = some s ∧ scalarText b = some s := by
  cases h with
  | number ha hb hkind => exact .inl ⟨_, ha, hb, hkind⟩
  | text hnumber hs ht _ => exact .inr ⟨hnumber, _, hs, ht⟩
  | @decimal d d' htext _ => exact .inr ⟨.inl rfl, formatDecimal d, rfl, by rw [htext]; rfl⟩
  | @money m m' hcurrency htext _ =>
    exact .inr ⟨.inl rfl, m.currency ++ " " ++ formatDecimal m.amount, rfl,
      by rw [hcurrency, htext]; rfl⟩
  | @dateTime t t' hmembers hzone _ =>
    have htext : formatDatetime t = formatDatetime t' :=
      formatDatetime_eq_iff.mpr ⟨hmembers, fun h ↦ by rw [hzone] at h; cases h⟩
    exact .inr ⟨.inl rfl, formatDatetime t, rfl, by rw [htext]; rfl⟩

/-- The missed pairs are those that the test accepts and the index does not find. -/
theorem indexMisses_iff (ha : a.isScalar = true) (hb : b.isScalar = true) :
    IndexMisses a b ↔ evaluateCompare factId .eq a b = true ∧
      ¬ constraintValueEquals factId a b = true := by
  constructor
  · intro h
    rcases h.integers_or_text with ⟨i, hi, hj, hkind⟩ | ⟨hnumber, s, hs, ht⟩
    · refine ⟨(evaluateCompare_eq_of_integers factId hi hj).mpr rfl, fun heq ↦ hkind ?_⟩
      exact ((constraintValueEquals_of_integers factId hi hj).mp heq).2
    · refine ⟨(evaluateCompare_eq_of_not_integers factId
        (comparisonNumeric_eq_none_or ha hb hnumber)).mpr (.inl ⟨s, hs, ht⟩), fun heq ↦ ?_⟩
      have hindex := index_eq_of_constraintValueEquals factId heq
      exact (constraintValueEquals_of_texts factId hindex hnumber hs ht).mp heq h
  · rintro ⟨htest, hkey⟩
    rcases integers_or a b with ⟨i, j, hi, hj⟩ | hnumber
    · have hij := (evaluateCompare_eq_of_integers factId hi hj).mp htest
      subst hij
      rw [constraintValueEquals_of_integers factId hi hj] at hkey
      exact .number hi hj fun hkind ↦ hkey ⟨rfl, hkind⟩
    · rcases (evaluateCompare_eq_of_not_integers factId
        (comparisonNumeric_eq_none_or ha hb hnumber)).mp htest with ⟨s, hs, ht⟩ | ⟨-, heq⟩
      · by_cases hindex : a.index = b.index
        · rw [constraintValueEquals_of_texts factId hindex hnumber hs ht] at hkey
          exact not_not.mp hkey
        · exact .text hnumber hs ht hindex
      · exact absurd heq hkey

/-- On scalar values an index and a test agree exactly outside `IndexMisses`. -/
theorem constraintValueEquals_iff_evaluateCompare (ha : a.isScalar = true)
    (hb : b.isScalar = true) :
    (constraintValueEquals factId a b = true ↔ evaluateCompare factId .eq a b = true) ↔
      ¬ IndexMisses a b := by
  have himp := evaluateCompare_of_constraintValueEquals factId ha hb
  rw [indexMisses_iff factId ha hb, not_and_not_right]
  exact ⟨fun h ↦ h.mpr, fun h ↦ ⟨himp, h⟩⟩

/-- A date is not the decimal with which it shares its year. -/
theorem constraintValueEquals_iff_evaluateCompare_date :
    (constraintValueEquals (fun _ ↦ 0) (.date ⟨2024, 1, 2⟩) (.decimal ⟨2024, 0⟩) = true ↔
        evaluateCompare (fun _ ↦ 0) .eq (.date ⟨2024, 1, 2⟩) (.decimal ⟨2024, 0⟩) = true) ↔
      ¬ IndexMisses (.date ⟨2024, 1, 2⟩) (.decimal ⟨2024, 0⟩) :=
  constraintValueEquals_iff_evaluateCompare (fun _ ↦ 0) rfl rfl

/-- The test accepts an integer and the same integer unsigned, the index does not find it. -/
theorem index_misses_unsigned :
    ¬ ∀ a b : ConstraintValue, a.isScalar = true → b.isScalar = true →
      (constraintValueEquals (fun _ ↦ 0) a b = true ↔
        evaluateCompare (fun _ ↦ 0) .eq a b = true) := by
  intro h
  have hkey := (h (.int64 5) (.uint64 5) rfl rfl).mpr (by decide +kernel)
  revert hkey
  decide +kernel

end Agreement

end RulesForge
