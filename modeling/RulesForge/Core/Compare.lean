import Mathlib.Data.List.Infix
import RulesForge.Core.Value

/-!
# Comparison operators

`CompareOp` with its negation table (`include/core/constraint_types.hpp`), the run-time
test `evaluate_compare` of the LHS and the temporal test `evaluate_temporal`
(`src/rete/rete_node.cpp`).

A test first tries both sides as **numbers**, then both as **texts**, and falls back on
`ConstraintValueEquals`; an operator none of these branches knows is false.
-/

namespace RulesForge

inductive CompareOp where
  | none | eq | ne | gt | lt | ge | le | hasFlag | contains | notContains | «matches»
  | notMatches | startsWith | endsWith | lengthIs | memberOf | notMemberOf | «in» | notIn
  | containsKey | notContainsKey
  deriving DecidableEq, Repr

/-- The operator used in place of `op` when a constraint is negated. Only the six
comparisons have a complement in the table. -/
def negateCompareOp : CompareOp → CompareOp
  | .eq => .ne
  | .ne => .eq
  | .gt => .le
  | .le => .gt
  | .ge => .lt
  | .lt => .ge
  | op => op

/-- The six comparisons, the operators with a complement. -/
def CompareOp.IsComparison : CompareOp → Prop
  | .eq | .ne | .gt | .lt | .ge | .le => True
  | _ => False

instance : DecidablePred CompareOp.IsComparison := fun op ↦ by
  cases op <;> unfold CompareOp.IsComparison <;> infer_instance

/-- What the six comparisons say of two members of an order. -/
def CompareOp.Relates {α : Type} [LinearOrder α] (op : CompareOp) (a b : α) : Prop :=
  match op with
  | .eq => a = b
  | .ne => a ≠ b
  | .gt => b < a
  | .lt => a < b
  | .ge => b ≤ a
  | .le => a ≤ b
  | _ => False

inductive TemporalOp where
  | none | after | before | within | coincides | during
  deriving DecidableEq, Repr

/-! ### Numbers -/

inductive RuntimeNumeric where
  | signed (i : ℤ)
  | unsigned (n : ℕ)
  | double (d : Double)

def comparisonNumeric : ConstraintValue → Option RuntimeNumeric
  | .int64 i => some (.signed i)
  | .uint64 n => some (.unsigned n)
  | .double d => some (.double d)
  | .duration ms => some (.signed ms)
  | .enum e =>
    match e.value with
    | .signed i => some (.signed i)
    | .unsigned n => some (.unsigned n)
  | _ => none

/-- `static_cast<double>`. -/
def RuntimeNumeric.toDouble : RuntimeNumeric → Double
  | .signed i => Double.ofInt i
  | .unsigned n => Double.ofInt n
  | .double d => d

/-- A double on either side makes the comparison one of doubles; signed and unsigned
integers compare by value. -/
def compareNumeric : RuntimeNumeric → RuntimeNumeric → Ordering
  | .double a, b => a.cmp b.toDouble
  | a, .double b => a.toDouble.cmp b
  | .signed a, .signed b => compare a b
  | .signed a, .unsigned b => if a < 0 then .lt else compare a.toNat b
  | .unsigned a, .signed b => if b < 0 then .gt else compare a b.toNat
  | .unsigned a, .unsigned b => compare a b

def evaluateOrderedCompare (op : CompareOp) (comparison : Ordering) : Bool :=
  match op with
  | .eq => comparison == .eq
  | .ne => comparison != .eq
  | .gt => comparison == .gt
  | .lt => comparison == .lt
  | .ge => comparison != .lt
  | .le => comparison != .gt
  | _ => false

def bitMaskValue : ConstraintValue → Option ℕ
  | .uint64 n => some n
  | .int64 i => if 0 ≤ i then some i.toNat else none
  | _ => none

/-! ### Texts -/

/-- The branch of `evaluate_compare` for two texts. -/
def evaluateTextCompare (op : CompareOp) (lhs rhs : String) : Bool :=
  match op with
  | .contains => decide (rhs.toList <:+: lhs.toList)
  | .notContains => !decide (rhs.toList <:+: lhs.toList)
  | .startsWith => decide (rhs.toList <+: lhs.toList)
  | .endsWith => decide (rhs.toList <:+ lhs.toList)
  | op => evaluateOrderedCompare op (compare lhs rhs)

/-! ### The test -/

def evaluateCompare (factId : FactPtr → ℤ) (op : CompareOp) (lhs rhs : ConstraintValue) :
    Bool :=
  if op = .hasFlag then
    match bitMaskValue lhs, bitMaskValue rhs with
    | some bits, some mask => mask != 0 && bits &&& mask == mask
    | _, _ => false
  else
    match comparisonNumeric lhs, comparisonNumeric rhs with
    | some a, some b => evaluateOrderedCompare op (compareNumeric a b)
    | _, rhsNum =>
      match lhs, op, rhsNum with
      | .string s, .lengthIs, some b => compareNumeric (.unsigned s.length) b == .eq
      | .string _, .lengthIs, none => false
      | _, _, _ =>
        match scalarText lhs, scalarText rhs with
        | some a, some b => evaluateTextCompare op a b
        | _, _ =>
          match op with
          | .eq => constraintValueEquals factId lhs rhs
          | .ne => !constraintValueEquals factId lhs rhs
          | _ => false

/-! ### Complements -/

theorem evaluateOrderedCompare_negate {op : CompareOp} (hop : op.IsComparison) (o : Ordering) :
    evaluateOrderedCompare (negateCompareOp op) o = !evaluateOrderedCompare op o := by
  cases op <;> first | exact hop.elim | cases o <;> rfl

theorem evaluateTextCompare_eq_ordered {op : CompareOp} (hop : op.IsComparison) (a b : String) :
    evaluateTextCompare op a b = evaluateOrderedCompare op (compare a b) := by
  cases op <;> first | exact hop.elim | rfl

/-- Two values on which the six comparisons are decided by an order: both are numbers, or
both have a text. -/
def comparable (lhs rhs : ConstraintValue) : Bool :=
  ((comparisonNumeric lhs).isSome && (comparisonNumeric rhs).isSome) ||
    ((scalarText lhs).isSome && (scalarText rhs).isSome)

/-- The order that decides the comparisons of two comparable values. -/
theorem exists_evaluateCompare_eq_ordered (factId : FactPtr → ℤ) {lhs rhs : ConstraintValue}
    (h : comparable lhs rhs = true) :
    ∃ o : Ordering, ∀ op : CompareOp, op.IsComparison →
      evaluateCompare factId op lhs rhs = evaluateOrderedCompare op o := by
  have hflag : ∀ op : CompareOp, op.IsComparison → op ≠ .hasFlag := by
    rintro op hop rfl
    exact hop
  cases hl : comparisonNumeric lhs with
  | some a =>
    cases hr : comparisonNumeric rhs with
    | some b => exact ⟨compareNumeric a b, fun op hop ↦ by simp [evaluateCompare, hflag op hop, hl, hr]⟩
    | none =>
      obtain ⟨⟨s, hs⟩, t, ht⟩ : (∃ s, scalarText lhs = some s) ∧ ∃ t, scalarText rhs = some t := by
        simpa [comparable, hl, hr, Option.isSome_iff_exists] using h
      refine ⟨compare s t, fun op hop ↦ ?_⟩
      rw [← evaluateTextCompare_eq_ordered hop]
      cases op <;> first | exact hop.elim | simp [evaluateCompare, hl, hr, hs, ht]
  | none =>
    obtain ⟨⟨s, hs⟩, t, ht⟩ : (∃ s, scalarText lhs = some s) ∧ ∃ t, scalarText rhs = some t := by
      simpa [comparable, hl, Option.isSome_iff_exists] using h
    refine ⟨compare s t, fun op hop ↦ ?_⟩
    rw [← evaluateTextCompare_eq_ordered hop]
    cases op <;> first | exact hop.elim | simp [evaluateCompare, hl, hs, ht]

/-- On comparable values the negated operator is the complement. -/
theorem evaluateCompare_negate (factId : FactPtr → ℤ) {op : CompareOp} (hop : op.IsComparison)
    {lhs rhs : ConstraintValue} (h : comparable lhs rhs = true) :
    evaluateCompare factId (negateCompareOp op) lhs rhs = !evaluateCompare factId op lhs rhs := by
  obtain ⟨o, ho⟩ := exists_evaluateCompare_eq_ordered factId h
  have hneg : (negateCompareOp op).IsComparison := by
    cases op <;> first | exact hop.elim | trivial
  rw [ho _ hneg, ho _ hop, evaluateOrderedCompare_negate hop]

/-! ### Agreement with an order -/

theorem evaluateOrderedCompare_iff_relates {α : Type} [LinearOrder α] {op : CompareOp}
    (hop : op.IsComparison) (a b : α) :
    evaluateOrderedCompare op (compare a b) = true ↔ op.Relates a b := by
  rcases lt_trichotomy a b with h | h | h
  · rw [compare_lt_iff_lt.mpr h]
    cases op <;> first | exact hop.elim | simp [evaluateOrderedCompare, CompareOp.Relates, h, h.le,
      h.ne, h.not_ge, h.not_gt]
  · rw [compare_eq_iff_eq.mpr h]
    cases op <;> first | exact hop.elim | simp [evaluateOrderedCompare, CompareOp.Relates, h]
  · rw [compare_gt_iff_gt.mpr h]
    cases op <;> first | exact hop.elim | simp [evaluateOrderedCompare, CompareOp.Relates, h, h.le,
      h.ne', h.not_ge, h.not_gt]

/-- The six comparisons are decided by one outcome, so they agree with an order exactly if the
outcome does. -/
theorem forall_relates_iff {α : Type} [LinearOrder α] {o : Ordering} {a b : α} :
    (∀ op : CompareOp, op.IsComparison → (evaluateOrderedCompare op o = true ↔ op.Relates a b)) ↔
      o = compare a b := by
  constructor
  · intro h
    have hlt := h .lt trivial
    have heq := h .eq trivial
    rw [← @evaluateOrderedCompare_iff_relates α _ .lt trivial] at hlt
    rw [← @evaluateOrderedCompare_iff_relates α _ .eq trivial] at heq
    revert hlt heq
    cases o <;> cases compare a b <;> simp [evaluateOrderedCompare]
  · rintro rfl op hop
    exact evaluateOrderedCompare_iff_relates hop a b

/-- Two values with texts, not both numbers, are compared by their texts. -/
theorem evaluateCompare_of_texts (factId : FactPtr → ℤ) {op : CompareOp} (hop : op.IsComparison)
    {lhs rhs : ConstraintValue} {s t : String} (hnumber : comparisonNumeric lhs = none)
    (hs : scalarText lhs = some s) (ht : scalarText rhs = some t) :
    evaluateCompare factId op lhs rhs = evaluateOrderedCompare op (compare s t) := by
  rw [← evaluateTextCompare_eq_ordered hop]
  cases op <;> first | exact hop.elim | simp [evaluateCompare, hnumber, hs, ht]

/-! ### Time stamps -/

/-- Two's-complement wrapping of a 64-bit subtraction. -/
def wrap64 (i : ℤ) : ℤ := (i + 2 ^ 63) % 2 ^ 64 - 2 ^ 63

/-- `std::llabs`, which leaves the most negative value as it is. -/
def llabs (i : ℤ) : ℤ := if i = -2 ^ 63 then i else |i|

def evaluateTemporal (op : TemporalOp) (lhs rhs windowMs : ℤ) : Bool :=
  match op with
  | .after => decide (lhs > rhs)
  | .before => decide (lhs < rhs)
  | .within => decide (0 ≤ windowMs) && decide (llabs (wrap64 (lhs - rhs)) ≤ windowMs)
  | .coincides => lhs == rhs
  | .during => decide (lhs ≥ rhs)
  | .none => false

end RulesForge
