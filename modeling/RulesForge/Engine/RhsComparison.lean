import RulesForge.Core.IndexEquality
import RulesForge.Rete.Network

/-!
# Comparisons on the right-hand side

The comparison `compare_scalar_values` of conditions in actions (`src/engine/rhs_executor.cpp`)
is a second copy of the test `evaluate_compare` of the patterns. Texts are compared alike, but
numbers are converted to doubles first, where the patterns compare them exactly. The two agree
but on integers with the **same nearest double** (`compareScalarValues_agrees`).
-/

namespace RulesForge

/-! ### The comparison -/

/-- Equality of two doubles that are numbers. -/
def exactDoubleEqual (lhs rhs : Double) : Bool :=
  decide (lhs ≠ .nan) && decide (rhs ≠ .nan) && !(lhs.lt rhs || rhs.lt lhs)

def scalarNumber : ConstraintValue → Option Double
  | .int64 i => some (.ofInt i)
  | .double d => some d
  | .uint64 n => some (.ofInt n)
  | .duration ms => some (.ofInt ms)
  | .enum e =>
    match e.value with
    | .signed i => some (.ofInt i)
    | .unsigned n => some (.ofInt n)
  | _ => none

/-- `>=`, which like every comparison is false on a not-a-number. -/
def doubleGe (lhs rhs : Double) : Bool :=
  rhs.lt lhs || exactDoubleEqual lhs rhs

/-- `compare_scalar_values`; the operator is one of the six comparisons. -/
def compareScalarValues (op : CompareOp) (lhs rhs : ConstraintValue) : Bool :=
  match scalarNumber lhs, scalarNumber rhs with
  | some a, some b =>
    match op with
    | .eq => exactDoubleEqual a b
    | .ne => !exactDoubleEqual a b
    | .ge => doubleGe a b
    | .le => doubleGe b a
    | .gt => b.lt a
    | .lt => a.lt b
    | _ => false
  | _, _ =>
    match scalarText lhs, scalarText rhs with
    | some a, some b => evaluateOrderedCompare op (compare a b)
    | _, _ =>
      match op with
      | .eq => literalEquals lhs rhs
      | .ne => !literalEquals lhs rhs
      | _ => false

/-! ### Numbers -/

section Numbers

variable {a b : ConstraintValue} {i j : ℤ} {op : CompareOp}

theorem ofInt_ne_nan (i : ℤ) : Double.ofInt i ≠ .nan := nofun

theorem exactDoubleEqual_ofInt (i j : ℤ) : exactDoubleEqual (.ofInt i) (.ofInt j) =
    decide (Double.roundToInt i = Double.roundToInt j) := by
  have hi := ofInt_ne_nan i
  have hj := ofInt_ne_nan j
  simp only [exactDoubleEqual, hi, hj, Double.ofInt_lt_ofInt, ne_eq, not_false_eq_true]
  rcases lt_trichotomy (Double.roundToInt i) (Double.roundToInt j) with h | h | h
  · simp [h, h.ne]
  · simp [h]
  · simp [h, h.ne']

/-- The double of a number is that of the integer behind it. -/
theorem scalarNumber_of_integer (ha : a.integer = some i) :
    scalarNumber a = some (.ofInt i) := by
  cases a with
  | enum e =>
    obtain ⟨typeName, value, itemName⟩ := e
    cases value <;> cases ha <;> rfl
  | _ => cases ha <;> rfl

/-- Integers are compared as their doubles. -/
theorem compareScalarValues_of_integers (hop : op.IsComparison) (ha : a.integer = some i)
    (hb : b.integer = some j) : compareScalarValues op a b =
      evaluateOrderedCompare op (compare (Double.roundToInt i) (Double.roundToInt j)) := by
  simp only [compareScalarValues, scalarNumber_of_integer ha, scalarNumber_of_integer hb,
    doubleGe, exactDoubleEqual_ofInt, Double.ofInt_lt_ofInt]
  rcases lt_trichotomy (Double.roundToInt i) (Double.roundToInt j) with h | h | h
  · rw [compare_lt_iff_lt.mpr h]
    cases op <;> first | exact hop.elim | simp [evaluateOrderedCompare, h, h.ne, h.ne', h.not_gt]
  · rw [compare_eq_iff_eq.mpr h]
    cases op <;> first | exact hop.elim | simp [evaluateOrderedCompare, h]
  · rw [compare_gt_iff_gt.mpr h]
    cases op <;> first | exact hop.elim | simp [evaluateOrderedCompare, h, h.ne, h.ne', h.not_gt]

/-- Different integers with one nearest double are told apart by a comparison that differs from
what it is on equal ones. -/
def RoundsAway (op : CompareOp) (a b : ConstraintValue) : Prop :=
  ∃ i j, a.integer = some i ∧ b.integer = some j ∧
    Double.roundToInt i = Double.roundToInt j ∧
      (i < j ∧ op ∈ [.eq, .ne, .lt, .ge] ∨ j < i ∧ op ∈ [.eq, .ne, .gt, .le])

theorem roundsAway_iff (ha : a.integer = some i) (hb : b.integer = some j) :
    RoundsAway op a b ↔ Double.roundToInt i = Double.roundToInt j ∧
      (i < j ∧ op ∈ [CompareOp.eq, .ne, .lt, .ge] ∨
        j < i ∧ op ∈ [CompareOp.eq, .ne, .gt, .le]) := by
  constructor
  · rintro ⟨i', j', ha', hb', h⟩
    obtain rfl : i' = i := Option.some_inj.mp (ha'.symm.trans ha)
    obtain rfl : j' = j := Option.some_inj.mp (hb'.symm.trans hb)
    exact h
  · exact fun h ↦ ⟨i, j, ha, hb, h⟩

/-- The doubles of two integers compare as the integers do, but where they are the same. -/
theorem evaluateOrderedCompare_round (hop : op.IsComparison) :
    evaluateOrderedCompare op (compare (Double.roundToInt i) (Double.roundToInt j)) =
        evaluateOrderedCompare op (compare i j) ↔
      ¬ (Double.roundToInt i = Double.roundToInt j ∧
        (i < j ∧ op ∈ [CompareOp.eq, .ne, .lt, .ge] ∨
          j < i ∧ op ∈ [CompareOp.eq, .ne, .gt, .le])) := by
  rcases lt_trichotomy i j with hij | rfl | hij
  · rw [compare_lt_iff_lt.mpr hij]
    rcases (Double.roundToInt_mono hij.le).lt_or_eq with hround | hround
    · rw [compare_lt_iff_lt.mpr hround]
      simp [hround.ne]
    · rw [compare_eq_iff_eq.mpr hround]
      cases op <;> first
        | exact hop.elim
        | simp [evaluateOrderedCompare, hround, hij, hij.not_gt]; try rfl
  · simp
  · rw [compare_gt_iff_gt.mpr hij]
    rcases (Double.roundToInt_mono hij.le).lt_or_eq with hround | hround
    · rw [compare_gt_iff_gt.mpr hround]
      simp [hround.ne']
    · rw [compare_eq_iff_eq.mpr hround.symm]
      cases op <;> first
        | exact hop.elim
        | simp [evaluateOrderedCompare, hround, hij, hij.not_gt]; try rfl

end Numbers

/-! ### Texts and the rest -/

section Texts

variable {a b : ConstraintValue} {op : CompareOp}

/-- `==` of the variant is the equality of scalar keys. -/
theorem literalEquals_eq_constraintValueEquals (factId : FactPtr → ℤ) (ha : a.isScalar = true)
    (hb : b.isScalar = true) : literalEquals a b = constraintValueEquals factId a b := by
  rw [Bool.eq_iff_iff, constraintValueEquals_iff factId (isPlain_of_isScalar ha)
    (isPlain_of_isScalar hb)]
  by_cases hindex : a.index = b.index
  · cases a <;> cases ha <;> cases b <;> cases hb <;> cases hindex <;>
      simp [literalEquals, ConstraintValue.canonical]
  · refine iff_of_false (fun h ↦ hindex ?_) fun h ↦ hindex ?_
    · cases a <;> cases ha <;> cases b <;> first | rfl | cases h
    · rw [← ConstraintValue.index_canonical a, h, ConstraintValue.index_canonical]

/-- Where one side is no number, the two comparisons are the same. -/
theorem compareScalarValues_of_not_integers (factId : FactPtr → ℤ) (hop : op.IsComparison)
    (ha : a.isScalar = true) (hb : b.isScalar = true)
    (hnumber : a.integer = none ∨ b.integer = none) :
    compareScalarValues op a b = evaluateCompare factId op a b := by
  have hnone : ∀ {v : ConstraintValue}, v.isScalar = true → v.integer = none →
      scalarNumber v = none := by
    intro v hv hinteger
    cases v with
    | double d => cases hv
    | enum e =>
      obtain ⟨typeName, value, itemName⟩ := e
      cases value <;> cases hinteger
    | _ => first | rfl | cases hinteger
  have hrhs : compareScalarValues op a b =
      match scalarText a, scalarText b with
      | some s, some t => evaluateOrderedCompare op (compare s t)
      | _, _ => equalityTest op (literalEquals a b) := by
    rcases hnumber with hinteger | hinteger
    · simp only [compareScalarValues, hnone ha hinteger]
      rfl
    · simp only [compareScalarValues, hnone hb hinteger]
      cases scalarNumber a <;> rfl
  have hpattern := evaluateCompare_of_not_numbers factId hop
    (comparisonNumeric_eq_none_or ha hb hnumber)
  rw [← literalEquals_eq_constraintValueEquals factId ha hb] at hpattern
  refine hrhs.trans (Eq.trans ?_ hpattern.symm)
  cases scalarText a <;> cases scalarText b <;> rfl

end Texts

/-- The comparison of actions is that of patterns, and on integers both are the comparison of
integers, exactly where no two different integers have one nearest double. -/
theorem compareScalarValues_agrees (factId : FactPtr → ℤ) {op : CompareOp}
    {a b : ConstraintValue} (hop : op.IsComparison) (ha : a.isScalar = true)
    (hb : b.isScalar = true) :
    (compareScalarValues op a b = evaluateCompare factId op a b ∧
        ∀ i j, a.integer = some i → b.integer = some j →
          evaluateCompare factId op a b = evaluateOrderedCompare op (compare i j) ∧
            compareScalarValues op a b = evaluateOrderedCompare op (compare i j)) ↔
      ¬ RoundsAway op a b := by
  rcases integers_or a b with ⟨i, j, hi, hj⟩ | hnumber
  · rw [roundsAway_iff hi hj, ← evaluateOrderedCompare_round hop,
      ← compareScalarValues_of_integers hop hi hj, evaluateCompare_of_integers factId hop hi hj]
    refine ⟨And.left, fun h ↦ ⟨h, fun i' j' hi' hj' ↦ ?_⟩⟩
    obtain rfl : i = i' := Option.some_inj.mp (hi.symm.trans hi')
    obtain rfl : j = j' := Option.some_inj.mp (hj.symm.trans hj')
    exact ⟨rfl, h⟩
  · refine iff_of_true ⟨compareScalarValues_of_not_integers factId hop ha hb hnumber, ?_⟩ ?_
    · intro i j hi hj
      rcases hnumber with hnone | hnone
      · cases hnone.symm.trans hi
      · cases hnone.symm.trans hj
    · rintro ⟨i, j, hi, hj, -⟩
      rcases hnumber with hnone | hnone
      · cases hnone.symm.trans hi
      · cases hnone.symm.trans hj

/-- Dates are compared alike. -/
theorem compareScalarValues_agrees_date :
    (compareScalarValues .lt (.date ⟨2024, 1, 2⟩) (.date ⟨2024, 10, 1⟩) =
          evaluateCompare (fun _ ↦ 0) .lt (.date ⟨2024, 1, 2⟩) (.date ⟨2024, 10, 1⟩) ∧
        ∀ i j, (ConstraintValue.date ⟨2024, 1, 2⟩).integer = some i →
          (ConstraintValue.date ⟨2024, 10, 1⟩).integer = some j →
            evaluateCompare (fun _ ↦ 0) .lt (.date ⟨2024, 1, 2⟩) (.date ⟨2024, 10, 1⟩) =
                evaluateOrderedCompare .lt (compare i j) ∧
              compareScalarValues .lt (.date ⟨2024, 1, 2⟩) (.date ⟨2024, 10, 1⟩) =
                evaluateOrderedCompare .lt (compare i j)) ↔
      ¬ RoundsAway .lt (.date ⟨2024, 1, 2⟩) (.date ⟨2024, 10, 1⟩) :=
  compareScalarValues_agrees (fun _ ↦ 0) trivial rfl rfl

/-- Past `2 ^ 53` an action takes two neighbouring integers for equal, a pattern does not. -/
theorem compareScalarValues_neighbours :
    compareScalarValues .eq (.int64 9007199254740992) (.int64 9007199254740993) = true ∧
      evaluateCompare (fun _ ↦ 0) .eq (.int64 9007199254740992) (.int64 9007199254740993) =
        false := by
  decide +kernel

end RulesForge
