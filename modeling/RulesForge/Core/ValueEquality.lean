import RulesForge.Core.Compare

/-!
# Equality of values by canonical forms

`ConstraintValueEquals` calls two values equal when neither precedes the other. On **plain**
values, those without a not-a-number and without lists of facts, this is equality of a
canonical form, which forgets the item names of enumerators (`constraintValueEquals_iff`).
It is then an equivalence, and does not depend on the ids of facts; the buckets of a hash map
with plain keys are indexed by canonical forms.
-/

namespace RulesForge

/-! ### Plain values and canonical forms -/

namespace ConstraintValue

mutual

/-- A value without a not-a-number and without lists of facts. -/
def isPlain : ConstraintValue → Bool
  | double d => decide (d ≠ .nan)
  | factList _ => false
  | typedList values => arePlain values
  | valueSet values => arePlain values
  | valueMap entries => entriesPlain entries
  | _ => true

def arePlain : List ConstraintValue → Bool
  | [] => true
  | v :: vs => isPlain v && arePlain vs

def entriesPlain : List (ConstraintValue × ConstraintValue) → Bool
  | [] => true
  | (k, v) :: entries => isPlain k && isPlain v && entriesPlain entries

end

mutual

/-- The value with the item names of its enumerators forgotten. -/
def canonical : ConstraintValue → ConstraintValue
  | enum e => enum { e with itemName := "" }
  | typedList values => typedList (canonicals values)
  | valueSet values => valueSet (canonicals values)
  | valueMap entries => valueMap (canonicalEntries entries)
  | v => v

def canonicals : List ConstraintValue → List ConstraintValue
  | [] => []
  | v :: vs => canonical v :: canonicals vs

def canonicalEntries :
    List (ConstraintValue × ConstraintValue) → List (ConstraintValue × ConstraintValue)
  | [] => []
  | (k, v) :: entries => (canonical k, canonical v) :: canonicalEntries entries

end

@[simp]
theorem index_canonical (v : ConstraintValue) : v.canonical.index = v.index := by
  cases v <;> rfl

end ConstraintValue

/-! ### Equality is equality of canonical forms -/

section Equality

open ConstraintValue

variable (factId : FactPtr → ℤ)

/-- Values that compare as equal are of one alternative. -/
theorem compareValues_eq_index {a b : ConstraintValue} (h : compareValues factId a b = .eq) :
    a.index = b.index := by
  cases a <;> cases b <;> first | rfl | simp [compareValues, index] at h

theorem EnumNumericValue.cmp_eq_iff (a b : EnumNumericValue) : a.cmp b = .eq ↔ a = b := by
  cases a <;> cases b <;> simp [cmp]

theorem DateTimeValue.members_inj {a b : DateTimeValue} : a.members = b.members ↔ a = b := by
  cases a with
  | mk _ _ _ _ _ _ _ _ tz => cases b with
    | mk _ _ _ _ _ _ _ _ tz' => cases tz <;> cases tz' <;> simp [members]

theorem DateValue.members_inj {a b : DateValue} : a.members = b.members ↔ a = b := by
  cases a; cases b; simp [members]

theorem TimeValue.members_inj {a b : TimeValue} : a.members = b.members ↔ a = b := by
  cases a; cases b; simp [members]

theorem DecimalValue.members_inj {a b : DecimalValue} : a.members = b.members ↔ a = b := by
  cases a; cases b; simp [members]

theorem MoneyValue.cmp_eq_iff (a b : MoneyValue) : a.cmp b = .eq ↔ a = b := by
  cases a; cases b
  simp [cmp, DecimalValue.members_inj]

/-- Values of different alternatives are told apart by both. -/
theorem compareValues_eq_iff_of_index_ne {a b : ConstraintValue} (h : a.index ≠ b.index) :
    compareValues factId a b = .eq ↔ a.canonical = b.canonical := by
  refine iff_of_false (fun heq ↦ h (compareValues_eq_index factId heq)) fun heq ↦ h ?_
  rw [← index_canonical a, heq, index_canonical]

/-- Whether a value is a collection of values. -/
def ConstraintValue.isCollection : ConstraintValue → Bool
  | typedList _ | valueSet _ | valueMap _ => true
  | _ => false

/-- Scalars compare as equal exactly when their canonical forms are. -/
theorem compareValues_eq_iff_of_scalar {a b : ConstraintValue} (hscalar : a.isCollection = false)
    (ha : a.isPlain = true) (hb : b.isPlain = true) :
    compareValues factId a b = .eq ↔ a.canonical = b.canonical := by
  cases a <;> cases b <;>
    try exact compareValues_eq_iff_of_index_ne factId (Nat.ne_of_beq_eq_false rfl)
  case double.double x y =>
    simpa [compareValues, canonical] using
      Double.cmp_eq_iff (by simpa [isPlain] using ha) (by simpa [isPlain] using hb)
  case factList.factList => cases ha
  case typedList.typedList => cases hscalar
  case valueSet.valueSet => cases hscalar
  case valueMap.valueMap => cases hscalar
  all_goals
    simp [compareValues, canonical, EnumValue.cmp, EnumNumericValue.cmp_eq_iff,
      DateTimeValue.members_inj, DateValue.members_inj, TimeValue.members_inj,
      DecimalValue.members_inj, MoneyValue.cmp_eq_iff]

mutual

/-- **Plain values compare as equal exactly when their canonical forms are.** -/
theorem compareValues_eq_iff : ∀ {a b : ConstraintValue}, a.isPlain = true → b.isPlain = true →
    (compareValues factId a b = .eq ↔ a.canonical = b.canonical)
  | a, b, ha, hb => by
    cases a with
    | typedList as =>
      cases b with
      | typedList bs => simpa [compareValues, canonical] using compareValueLists_eq_iff ha hb
      | _ => exact compareValues_eq_iff_of_index_ne factId (Nat.ne_of_beq_eq_false rfl)
    | valueSet as =>
      cases b with
      | valueSet bs => simpa [compareValues, canonical] using compareValueLists_eq_iff ha hb
      | _ => exact compareValues_eq_iff_of_index_ne factId (Nat.ne_of_beq_eq_false rfl)
    | valueMap as =>
      cases b with
      | valueMap bs => simpa [compareValues, canonical] using compareEntries_eq_iff ha hb
      | _ => exact compareValues_eq_iff_of_index_ne factId (Nat.ne_of_beq_eq_false rfl)
    | _ => exact compareValues_eq_iff_of_scalar factId rfl ha hb

theorem compareValueLists_eq_iff : ∀ {as bs : List ConstraintValue}, arePlain as = true →
    arePlain bs = true → (compareValueLists factId as bs = .eq ↔ canonicals as = canonicals bs)
  | [], [], _, _ => by simp [compareValueLists]
  | [], _ :: _, _, _ => by simp [compareValueLists, canonicals]
  | _ :: _, [], _, _ => by simp [compareValueLists, canonicals]
  | a :: as, b :: bs, ha, hb => by
    simp only [arePlain, Bool.and_eq_true] at ha hb
    simp [compareValueLists, canonicals, compareValues_eq_iff ha.1 hb.1,
      compareValueLists_eq_iff ha.2 hb.2]

theorem compareEntries_eq_iff : ∀ {as bs : List (ConstraintValue × ConstraintValue)},
    entriesPlain as = true → entriesPlain bs = true →
      (compareEntries factId as bs = .eq ↔ canonicalEntries as = canonicalEntries bs)
  | [], [], _, _ => by simp [compareEntries]
  | [], _ :: _, _, _ => by simp [compareEntries, canonicalEntries]
  | _ :: _, [], _, _ => by simp [compareEntries, canonicalEntries]
  | (k, v) :: as, (k', v') :: bs, ha, hb => by
    simp only [entriesPlain, Bool.and_eq_true] at ha hb
    simp [compareEntries, canonicalEntries, compareValues_eq_iff ha.1.1 hb.1.1,
      compareValues_eq_iff ha.1.2 hb.1.2, compareEntries_eq_iff ha.2 hb.2]

end

/-- Plain values are equal exactly when their canonical forms are. -/
theorem constraintValueEquals_iff {a b : ConstraintValue} (ha : a.isPlain = true)
    (hb : b.isPlain = true) :
    constraintValueEquals factId a b = true ↔ a.canonical = b.canonical := by
  simp [constraintValueEquals, compareValues_eq_iff factId ha hb]

/-! ### Ids do not matter -/

variable (factId' : FactPtr → ℤ)

mutual

/-- The order of a plain value and another does not depend on the ids of facts. -/
theorem compareValues_congr : ∀ {a b : ConstraintValue}, a.isPlain = true →
    compareValues factId a b = compareValues factId' a b
  | a, b, ha => by
    cases a with
    | factList facts => simp [isPlain] at ha
    | typedList as =>
      cases b with
      | typedList bs => simpa [compareValues] using compareValueLists_congr ha
      | _ => rfl
    | valueSet as =>
      cases b with
      | valueSet bs => simpa [compareValues] using compareValueLists_congr ha
      | _ => rfl
    | valueMap as =>
      cases b with
      | valueMap bs => simpa [compareValues] using compareEntries_congr ha
      | _ => rfl
    | _ => cases b <;> rfl

theorem compareValueLists_congr : ∀ {as bs : List ConstraintValue}, arePlain as = true →
    compareValueLists factId as bs = compareValueLists factId' as bs
  | [], [], _ => rfl
  | [], _ :: _, _ => rfl
  | _ :: _, [], _ => rfl
  | a :: as, b :: bs, ha => by
    simp only [arePlain, Bool.and_eq_true] at ha
    simp only [compareValueLists, compareValues_congr ha.1, compareValueLists_congr ha.2]

theorem compareEntries_congr : ∀ {as bs : List (ConstraintValue × ConstraintValue)},
    entriesPlain as = true → compareEntries factId as bs = compareEntries factId' as bs
  | [], [], _ => rfl
  | [], _ :: _, _ => rfl
  | _ :: _, [], _ => rfl
  | (k, v) :: as, (k', v') :: bs, ha => by
    simp only [entriesPlain, Bool.and_eq_true] at ha
    simp only [compareEntries, compareValues_congr ha.1.1, compareValues_congr ha.1.2,
      compareEntries_congr ha.2]

end

/-- A comparison whose left side is plain does not look at the ids of facts. -/
theorem evaluateCompare_congr (op : CompareOp) {a : ConstraintValue} (ha : a.isPlain = true)
    (b : ConstraintValue) : evaluateCompare factId op a b = evaluateCompare factId' op a b := by
  simp only [evaluateCompare, constraintValueEquals, compareValues_congr factId factId' ha]

end Equality

end RulesForge
