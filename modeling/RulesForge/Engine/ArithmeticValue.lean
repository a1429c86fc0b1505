import RulesForge.Engine.ArithmeticEvaluation

/-!
# The value of an arithmetic text

Whether the evaluators give an expression its value comes down to whether the expression **read
from the right**, in doubles, has the value it has read from the left (`evaluate_arithmetic`). It
has where nothing follows a subtraction, the sums of the last terms are small and no later factor
has a sign (`ArithExpr.Aligned`); products are the same from both ends.
-/

namespace RulesForge

/-! ### Small integers -/

theorem fitsInt64_of_isSmall {i : ℤ} (h : IsSmall i) : fitsInt64 i = true := by
  have hsmall : i.natAbs ≤ 2 ^ 53 := h
  exact decide_eq_true (by omega)

section Library

variable {library : NumberLibrary} {i j : ℤ}

theorem toInt64_ofInt (h : IsSmall i) : library.toInt64 (.ofInt i) = i := by
  have hint : (Double.ofInt i).toInt = i := Double.toInt_ofInt h
  show (if fitsInt64 (Double.ofInt i).toInt = true then (Double.ofInt i).toInt else _) = i
  rw [hint, if_pos (fitsInt64_of_isSmall h)]

/-- Sums and differences of small integers that are small are exact. -/
theorem applySign_addOp (op : AddOp) (hi : IsSmall i) (hj : IsSmall j)
    (h : IsSmall (op.apply i j)) : library.applySign op.sign i j = op.apply i j := by
  cases op with
  | add =>
    show library.toInt64 ((Double.ofInt i).add (.ofInt j)) = i + j
    rw [Double.add_ofInt hi hj h]
    exact toInt64_ofInt h
  | sub =>
    show library.toInt64 ((Double.ofInt i).sub (.ofInt j)) = i - j
    rw [Double.sub_ofInt hi hj h]
    exact toInt64_ofInt h

/-- So are products, and a product with zero is zero, whatever the other factor is. -/
theorem applySign_mul (hi : IsSmall i) (hj : i ≠ 0 → IsSmall j) (h : IsSmall (i * j)) :
    library.applySign '*' i j = i * j := by
  show library.toInt64 ((Double.ofInt i).mul (.ofInt j)) = i * j
  rcases eq_or_ne i 0 with rfl | hne
  · rw [Double.zero_mul_ofInt, zero_mul, toInt64_ofInt hi]
  · rw [Double.mul_ofInt hi (hj hne) h, toInt64_ofInt h]

end Library

/-! ### Values -/

section Values

variable {env : ExprVariable → ℤ}

theorem ArithProduct.valueFrom_mul (i : ℤ) :
    ∀ (p : ArithProduct) (k : ℤ), p.valueFrom env (i * k) = i * p.valueFrom env k
  | .single f, k => Int.mul_assoc i k (f.value env)
  | .times f rest, k => by
    show rest.valueFrom env (i * k * f.value env) = i * rest.valueFrom env (k * f.value env)
    rw [Int.mul_assoc, ArithProduct.valueFrom_mul i rest]

/-- Products may be read from either end. -/
theorem ArithProduct.value_times (f : ArithFactor) (rest : ArithProduct) :
    (ArithProduct.times f rest).value env = f.value env * rest.value env := by
  show rest.valueFrom env (1 * f.value env) = f.value env * rest.valueFrom env 1
  rw [Int.mul_comm, ArithProduct.valueFrom_mul]

theorem ArithExpr.valueFrom_add (i : ℤ) :
    ∀ (e : ArithExpr) (k : ℤ) (op : AddOp),
      e.valueFrom env (i + k) op = i + e.valueFrom env k op
  | .single p, k, op => by
    cases op with
    | add => exact Int.add_assoc i k (p.value env)
    | sub => exact Int.add_sub_assoc i k (p.value env)
  | .step p op' rest, k, op => by
    have hshift : op.apply (i + k) (p.value env) = i + op.apply k (p.value env) := by
      cases op with
      | add => exact Int.add_assoc i k (p.value env)
      | sub => exact Int.add_sub_assoc i k (p.value env)
    show rest.valueFrom env (op.apply (i + k) (p.value env)) op' = _
    rw [hshift, ArithExpr.valueFrom_add i rest]
    rfl

/-- A sum may be read from either end when its first operator is an addition. -/
theorem ArithExpr.value_add (p : ArithProduct) (rest : ArithExpr) :
    (ArithExpr.step p .add rest).value env = p.value env + rest.value env := by
  show rest.valueFrom env (0 + p.value env) .add = p.value env + rest.valueFrom env 0 .add
  rw [Int.zero_add, ← ArithExpr.valueFrom_add, Int.add_zero]

theorem ArithExpr.value_sub (p q : ArithProduct) :
    (ArithExpr.step p .sub (.single q)).value env =
      p.value env - (ArithExpr.single q).value env := by
  show 0 + p.value env - q.value env = p.value env - (0 + q.value env)
  rw [Int.zero_add, Int.zero_add]

theorem ArithExpr.value_single (p : ArithProduct) :
    (ArithExpr.single p).value env = p.value env :=
  Int.zero_add _

/-! ### Ranges -/

theorem ArithProduct.isSmall_valueFrom :
    ∀ (p : ArithProduct) (i : ℤ), p.InRangeFrom env i → IsSmall (p.valueFrom env i)
  | .single _, _, h => h.2
  | .times f rest, i, h => rest.isSmall_valueFrom (i * f.value env) h.2.2

theorem ArithExpr.isSmall_valueFrom :
    ∀ (e : ArithExpr) (i : ℤ) (op : AddOp), e.InRangeFrom env i op →
      IsSmall (e.valueFrom env i op)
  | .single _, _, _, h => h.2
  | .step p op' rest, i, op, h => rest.isSmall_valueFrom (op.apply i (p.value env)) op' h.2.2

theorem ArithFactor.isSmall_value (f : ArithFactor) (h : f.InRange env) :
    IsSmall (f.value env) := by
  cases f with
  | literal l => exact h
  | var v => exact h
  | paren e => exact e.isSmall_valueFrom 0 .add h

/-! ### Reading from the right -/

variable (env) in
mutual

/-- Nothing follows a subtraction, what follows an addition is small, and no later factor has a
sign. -/
def ArithFactor.Aligned : ArithFactor → Prop
  | .literal _ | .var _ => True
  | .paren e => e.Aligned

def ArithProduct.Aligned : ArithProduct → Prop
  | .single f => f.Aligned
  | .times f rest => rest.first.IsSigned = false ∧ f.Aligned ∧ rest.Aligned

def ArithExpr.Aligned : ArithExpr → Prop
  | .single p => p.Aligned
  | .step p op rest =>
    p.Aligned ∧ rest.Aligned ∧ IsSmall (rest.value env) ∧ (op = .sub → ∃ q, rest = .single q)

end

variable {library : NumberLibrary}

mutual

theorem ArithFactor.Aligned.regrouped : ∀ {f : ArithFactor}, f.Aligned env → f.InRange env →
    f.regrouped library env = some (f.value env)
  | .literal _, _, _ => rfl
  | .var _, _, _ => rfl
  | .paren e, h, hrange =>
    ArithExpr.Aligned.regrouped h hrange (e.isSmall_valueFrom 0 .add hrange)

/-- A product read from the right has a value, which is the product if this is small. -/
theorem ArithProduct.Aligned.regrouped : ∀ {p : ArithProduct} {i : ℤ}, p.Aligned env →
    p.InRangeFrom env i → ∃ r, p.regrouped library env = some r ∧
      (IsSmall (p.value env) → r = p.value env)
  | .single f, i, h, hrange => by
    refine ⟨f.value env, ArithFactor.Aligned.regrouped h hrange.1, fun _ ↦ ?_⟩
    exact (Int.one_mul (f.value env)).symm
  | .times f rest, i, h, hrange => by
    have hf := @ArithFactor.Aligned.regrouped f h.2.1 hrange.1
    obtain ⟨r, hr, hexact⟩ := ArithProduct.Aligned.regrouped h.2.2 hrange.2.2
    refine ⟨library.applySign '*' (f.value env) r, ?_, fun hsmall ↦ ?_⟩
    · rw [ArithProduct.regrouped, h.1, hf, hr]
      rfl
    · rw [ArithProduct.value_times] at hsmall ⊢
      -- but for a zero, the factors that follow have a smaller product
      have hrest : f.value env ≠ 0 → IsSmall (rest.value env) := by
        intro hne
        have hle : (rest.value env).natAbs ≤ (f.value env * rest.value env).natAbs := by
          rw [Int.natAbs_mul]
          exact Nat.le_mul_of_pos_left _ (Int.natAbs_pos.mpr hne)
        exact hle.trans hsmall
      have hsmall' := f.isSmall_value hrange.1
      rcases eq_or_ne (f.value env) 0 with hzero | hne
      · have hproduct : IsSmall (f.value env * r) := by
          rw [hzero, Int.zero_mul]
          exact Nat.zero_le _
        rw [applySign_mul hsmall' (fun hne ↦ absurd hzero hne) hproduct, hzero, Int.zero_mul,
          Int.zero_mul]
      · rw [hexact (hrest hne)]
        exact applySign_mul hsmall' hrest hsmall

/-- A sum read from the right has its value. -/
theorem ArithExpr.Aligned.regrouped : ∀ {e : ArithExpr} {i : ℤ} {op : AddOp}, e.Aligned env →
    e.InRangeFrom env i op → IsSmall (e.value env) →
      e.regrouped library env = some (e.value env)
  | .single p, i, op, h, hrange, hsmall => by
    obtain ⟨r, hr, hexact⟩ := @ArithProduct.Aligned.regrouped p 1 h hrange.1
    rw [ArithExpr.value_single]
    exact hr.trans (congrArg some (hexact (p.isSmall_valueFrom 1 hrange.1)))
  | .step p op' rest, i, op, h, hrange, hsmall => by
    obtain ⟨hp, hrest, hsmallRest, hlast⟩ := h
    have hsmallProduct : IsSmall (p.value env) := p.isSmall_valueFrom 1 hrange.1
    obtain ⟨r, hr, hexact⟩ := @ArithProduct.Aligned.regrouped p 1 hp hrange.1
    have hvalue : (ArithExpr.step p op' rest).value env =
        op'.apply (p.value env) (rest.value env) := by
      cases op' with
      | add => exact ArithExpr.value_add p rest
      | sub =>
        obtain ⟨q, rfl⟩ := hlast rfl
        exact ArithExpr.value_sub p q
    rw [ArithExpr.regrouped, hr, hexact hsmallProduct,
      ArithExpr.Aligned.regrouped hrest hrange.2.2 hsmallRest]
    rw [hvalue] at hsmall ⊢
    exact congrArg some (applySign_addOp op' hsmallProduct hsmallRest hsmall)

end

end Values

/-! ### The two evaluators -/

/-- No constant is spelled like an expression. -/
theorem lookup_constants_of_start {constants : List (String × ConstraintValue)}
    (hconstants : ∀ p ∈ constants, ∃ c text, p.1 = String.ofList (c :: text) ∧ isStart c = false)
    {c : Char} (hc : isStart c = true) (text : List Char) :
    constants.lookup (String.ofList (c :: text)) = none := by
  refine List.lookup_eq_none_iff.mpr fun p hp ↦ ?_
  obtain ⟨d, text', hname, hd⟩ := hconstants p hp
  have hne : String.ofList (c :: text) ≠ p.1 := by
    rw [hname]
    intro heq
    cases String.ofList_inj.mp heq
    exact Bool.noConfusion (hc.symm.trans hd)
  simpa using hne

theorem rhsConstants_not_start : ∀ p ∈ rhsConstants,
    ∃ c text, p.1 = String.ofList (c :: text) ∧ isStart c = false := by
  intro p hp
  simp only [rhsConstants, List.mem_cons, List.not_mem_nil, or_false] at hp
  rcases hp with rfl | rfl | rfl | rfl
  · exact ⟨'t', ['r', 'u', 'e'], rfl, rfl⟩
  · exact ⟨'f', ['a', 'l', 's', 'e'], rfl, rfl⟩
  · exact ⟨'n', ['i', 'l'], rfl, rfl⟩
  · exact ⟨'n', ['u', 'l', 'l'], rfl, rfl⟩

section Evaluators

variable {library : NumberLibrary} {env : ExprVariable → ℤ}
  {resolve : List Char → Option ConstraintValue} {e : ArithExpr}

theorem evaluateSimpleRuntimeExpression_text
    (hresolve : ∀ v ∈ e.variables, resolve v.text = some (.int64 (env v))) :
    evaluateSimpleRuntimeExpression library resolve e.text =
      (e.regrouped library env).map .int64 := by
  refine ArithExpr.evaluate ⟨fun _ ↦ rfl, fun c text hc ↦ ?_⟩ e _ _ hresolve e.level_tight.2.trim
    (Nat.lt_succ_self _)
  refine lookup_constants_of_start (fun p hp ↦ ?_) hc text
  simp only [List.mem_cons, List.not_mem_nil, or_false] at hp
  rcases hp with rfl | rfl
  · exact ⟨'t', ['r', 'u', 'e'], rfl, rfl⟩
  · exact ⟨'f', ['a', 'l', 's', 'e'], rfl, rfl⟩

/-- The same with spaces around the text. -/
theorem evaluateSimpleRhsValue_trim {expression : List Char}
    (hresolve : ∀ v ∈ e.variables, resolve v.text = some (.int64 (env v)))
    (htrim : trimAscii expression = e.text) (hlength : e.text.length ≤ expression.length) :
    evaluateSimpleRhsValue library resolve expression = (e.regrouped library env).map .int64 := by
  refine ArithExpr.evaluate ⟨fun _ ↦ rfl, fun c text hc ↦ ?_⟩ e _ _ hresolve htrim
    (Nat.lt_succ_of_le hlength)
  exact lookup_constants_of_start rhsConstants_not_start hc text

theorem evaluateSimpleRhsValue_text
    (hresolve : ∀ v ∈ e.variables, resolve v.text = some (.int64 (env v))) :
    evaluateSimpleRhsValue library resolve e.text = (e.regrouped library env).map .int64 :=
  evaluateSimpleRhsValue_trim hresolve e.level_tight.2.trim le_rfl

end Evaluators

/-- **The evaluators read an expression from the right**: for every expression of `int64` literals
and variables, the values of which and of the parts that are evaluated on the way are small, both
return its value exactly if it has the same value when it is read from the right, in doubles; and
it has where nothing follows a subtraction, what follows an addition is small and no later factor
of a product has a sign. -/
theorem evaluate_arithmetic (library : NumberLibrary) (env : ExprVariable → ℤ)
    (resolve resolve' : List Char → Option ConstraintValue) (e : ArithExpr)
    (hresolve : ∀ v ∈ e.variables, resolve v.text = some (.int64 (env v)))
    (hresolve' : ∀ v ∈ e.variables, resolve' v.text = some (.int64 (env v)))
    (hrange : e.InRange env) :
    ((evaluateSimpleRuntimeExpression library resolve e.text = some (.int64 (e.value env)) ∧
        evaluateSimpleRhsValue library resolve' e.text = some (.int64 (e.value env))) ↔
      e.regrouped library env = some (e.value env)) ∧
    (e.Aligned env → e.regrouped library env = some (e.value env)) := by
  have hmap : (e.regrouped library env).map ConstraintValue.int64 = some (.int64 (e.value env)) ↔
      e.regrouped library env = some (e.value env) := by
    constructor
    · intro h
      obtain ⟨i, hi, heq⟩ := Option.map_eq_some_iff.mp h
      cases heq
      exact hi
    · intro h
      rw [h]
      rfl
  refine ⟨?_, fun haligned ↦ ?_⟩
  · rw [evaluateSimpleRuntimeExpression_text hresolve, evaluateSimpleRhsValue_text hresolve', hmap,
      and_self]
  · exact haligned.regrouped hrange (e.isSmall_valueFrom 0 .add hrange)

/-- A library that is not asked for anything. -/
def bareLibrary : NumberLibrary where
  strtod := fun _ ↦ none
  unary := fun _ x ↦ x
  binary := fun _ x _ ↦ x
  outOfRange := fun _ ↦ 0

def two : IntLiteral := ⟨false, ['2'], by decide, by decide, by decide⟩

def three : IntLiteral := ⟨false, ['3'], by decide, by decide, by decide⟩

def ten : IntLiteral := ⟨false, ['1', '0'], by decide, by decide, by decide⟩

/-- `$x`. -/
def amount : ExprVariable := ⟨['x'], by decide⟩

/-- `2 + $x * 3 - 10`. -/
def lastSubtraction : ArithExpr :=
  .step (.single (.literal two)) .add
    (.step (.times (.var amount) (.single (.literal three))) .sub
      (.single (.single (.literal ten))))

/-- An expression whose last operator alone is a subtraction. -/
theorem evaluate_arithmetic_last :
    evaluateSimpleRuntimeExpression bareLibrary (fun _ ↦ some (.int64 5)) lastSubtraction.text =
        some (.int64 7) ∧
      evaluateSimpleRhsValue bareLibrary (fun _ ↦ some (.int64 5)) lastSubtraction.text =
        some (.int64 7) := by
  have hrange : lastSubtraction.InRange fun _ ↦ 5 := by
    simp only [ArithExpr.InRange, lastSubtraction, ArithExpr.InRangeFrom,
      ArithProduct.InRangeFrom, ArithFactor.InRange, IsSmall]
    decide
  have haligned : lastSubtraction.Aligned fun _ ↦ 5 := by
    refine ⟨trivial, ⟨⟨rfl, trivial, trivial⟩, trivial, ?_, fun _ ↦ ⟨_, rfl⟩⟩, ?_, nofun⟩
    · exact of_decide_eq_true (p := (10 : ℤ).natAbs ≤ 2 ^ 53) rfl
    · exact of_decide_eq_true (p := (5 : ℤ).natAbs ≤ 2 ^ 53) rfl
  have hvalue := evaluate_arithmetic bareLibrary (fun _ ↦ 5) (fun _ ↦ some (.int64 5))
    (fun _ ↦ some (.int64 5)) lastSubtraction (fun _ _ ↦ rfl) (fun _ _ ↦ rfl) hrange
  exact hvalue.1.mpr (hvalue.2 haligned)

/-- `10 - 3 - 2`. -/
def twoSubtractions : ArithExpr :=
  .step (.single (.literal ten)) .sub
    (.step (.single (.literal three)) .sub (.single (.single (.literal two))))

/-- **`10 - 3 - 2` is `9`**: both evaluators subtract `3 - 2` from `10`. -/
theorem evaluate_twoSubtractions :
    String.ofList twoSubtractions.text = "10 - 3 - 2" ∧
      twoSubtractions.InRange (fun _ ↦ 0) ∧ twoSubtractions.value (fun _ ↦ 0) = 5 ∧
      evaluateSimpleRuntimeExpression bareLibrary (fun _ ↦ none) twoSubtractions.text =
        some (.int64 9) ∧
      evaluateSimpleRhsValue bareLibrary (fun _ ↦ none) twoSubtractions.text =
        some (.int64 9) := by
  have hregrouped : twoSubtractions.regrouped bareLibrary (fun _ ↦ 0) = some 9 := by decide +kernel
  refine ⟨rfl, ?_, rfl, ?_, ?_⟩
  · simp only [ArithExpr.InRange, twoSubtractions, ArithExpr.InRangeFrom,
      ArithProduct.InRangeFrom, ArithFactor.InRange, IsSmall]
    decide
  · rw [@evaluateSimpleRuntimeExpression_text bareLibrary (fun _ ↦ 0) _ twoSubtractions nofun,
      hregrouped]
    rfl
  · rw [@evaluateSimpleRhsValue_text bareLibrary (fun _ ↦ 0) _ twoSubtractions nofun, hregrouped]
    rfl

/-- `2 * -3` has no value. -/
example : (ArithProduct.times (.literal two) (.single (.literal
    ⟨true, ['3'], by decide, by decide, by decide⟩))).regrouped bareLibrary (fun _ ↦ 0) = none :=
  rfl

end RulesForge
