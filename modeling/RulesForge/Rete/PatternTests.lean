import RulesForge.Rete.Partition
import RulesForge.Rete.RightInput

/-!
# The tests of a pattern

What is tested of a token and a fact before the pair is handed on, for each kind of pattern
(`src/rete/rete_node.cpp`, `rete_node_accumulate.inc`, `rete_node_unnest.inc`). A join or condition
node gives the text evaluator the fields of inline variables. **An accumulate node and an unnest
node do not**, and the constraints of an unnest pattern are all tested with the token
(`check_all_runtime_constraints`), none by an alpha node.
-/

namespace RulesForge

/-! ### The rows of an unnest node -/

section Rows

variable (env : RuntimeEnv) (heap : Heap) (bindings : Bindings) (token : TokenWME) (fact : FactPtr)

/-- The temporal branch, in which a variable may be the pattern's own. -/
def checkRuntimeTemporal (tc : ParsedTemporalConstraint) : Bool :=
  match getField heap fact tc.lhsField,
    (boundFact bindings token fact tc.rhsBindingAndField.1).bind
      (getField heap · tc.rhsBindingAndField.2) with
  | some (.int64 lhs), some (.int64 rhs) => evaluateTemporal tc.op lhs rhs tc.windowMs
  | _, _ => false

/-- One round of `check_all_runtime_constraints`. No descriptor names an external predicate, so the
comparisons are the ordinary ones; a constraint that names no right-hand side compares with nil. -/
def checkRuntimeConstraint (c : ParsedConstraint) : Bool :=
  if c.op = .none then true
  else
    match c.temporalConstraint with
    | some tc => checkRuntimeTemporal heap bindings token fact tc
    | none =>
      let rhs : Option ConstraintValue :=
        match c.rightBoundField, c.rightArithExpr with
        | some (binding, field), _ =>
          (boundFact bindings token fact binding).bind (getField heap · field)
        | none, some expression =>
          env.evaluateRuntimeExpression heap expression fact (some (token, bindings, []))
        | none, none => some (c.rightLiteral.getD .nil)
      match joinLeftValue heap bindings token fact c, rhs with
      | some lhs, some rhs => evaluateCompare (factIds heap) c.op lhs rhs
      | _, _ => false

end Rows

/-! ### The tests -/

/-- The pattern whose constraints are tested: that of the alpha chain, or the pattern itself if it
is one of rows. -/
def ConditionElement.tested (e : ConditionElement) : Option FactPattern :=
  match e.kind with
  | .unnest _ => some { factType := e.factType, constraintRoot := e.constraintRoot }
  | _ => e.patternForAlpha

/-- The leaves of a pattern's tree. -/
def FactPattern.leaves (pattern : FactPattern) : List ParsedConstraint :=
  pattern.constraintRoot.elim [] (·.leaves)

namespace ChainBuilder

variable (b : ChainBuilder) (e : ConditionElement)

/-- The fields of inline variables that the node gives the evaluator. -/
def fieldsOf : ScalarFields :=
  match e.kind with
  | .accumulate _ | .unnest _ => []
  | _ => b.inlineBindingToField

section Tests

variable (env : RuntimeEnv) (heap : Heap) (token : TokenWME) (fact : FactPtr)

/-- What is tested of a token and a fact of the right side: the alpha nodes and the join conditions.
The token of a row ends with the row. -/
def elementTest (pattern : FactPattern) : Bool :=
  match e.kind with
  | .unnest _ =>
    e.leafConstraints.all
      (checkRuntimeConstraint env heap b.bindingToIdx (.mk 0 token fact) fact)
  | _ =>
    let tests := installedTests b.inlineBindingToField pattern.constraintRoot
    tests.alphas.all (checkConstraint env heap · fact) &&
      checkAllJoinConditions env heap b.bindingToIdx (b.fieldsOf e) token fact tests.joins

/-- The test of a single leaf. -/
def elementLeafTest (c : ParsedConstraint) : Bool :=
  match e.kind with
  | .unnest _ =>
    checkRuntimeConstraint env heap b.bindingToIdx (.mk 0 token fact) fact
      { c with leftBinding := none }
  | _ =>
    if c.isJoin then
      checkJoin env heap b.bindingToIdx (b.fieldsOf e) token fact
        (normalizeInlineBoundField b.inlineBindingToField c)
    else checkConstraint env heap c fact

end Tests

end ChainBuilder

/-- The installed tests are the leaves, sorted by what they need. -/
theorem installedTests_eq (fields : ScalarFields) (root : Option ConstraintNode) :
    installedTests fields root =
      ⟨(root.elim [] (·.leaves)).filter (!·.isJoin),
        ((root.elim [] (·.leaves)).filter (·.isJoin)).map (normalizeInlineBoundField fields)⟩ := by
  cases root with
  | none => rfl
  | some tree => simp [installedTests, partitionConstraints_eq]

/-- A list of leaves, tested in two groups. -/
theorem all_filter_iff {leaves : List ParsedConstraint} {alpha join : ParsedConstraint → Bool} :
    ((leaves.filter (!·.isJoin)).all alpha && (leaves.filter (·.isJoin)).all join) = true ↔
      ∀ c ∈ leaves, (if c.isJoin then join c else alpha c) = true := by
  rw [Bool.and_eq_true, List.all_eq_true, List.all_eq_true]
  simp only [List.mem_filter, Bool.not_eq_true', and_imp]
  constructor
  · rintro ⟨halpha, hjoin⟩ c hc
    cases h : c.isJoin with
    | true => exact hjoin c hc h
    | false => exact halpha c hc h
  · intro hall
    refine ⟨fun c hc h ↦ ?_, fun c hc h ↦ ?_⟩
    · simpa only [h, Bool.false_eq_true, if_false] using hall c hc
    · simpa only [h, if_true] using hall c hc

/-- **The conjunction of the leaves**: a pair passes the tests of a pattern exactly when it passes
that of every leaf. -/
theorem ChainBuilder.elementTest_iff {b : ChainBuilder} {e : ConditionElement}
    {pattern : FactPattern} (hpattern : e.tested = some pattern) {env : RuntimeEnv} {heap : Heap}
    {token : TokenWME} {fact : FactPtr} :
    b.elementTest e env heap token fact pattern = true ↔
      ∀ c ∈ pattern.leaves, b.elementLeafTest e env heap token fact c = true := by
  unfold ConditionElement.tested at hpattern
  unfold elementTest elementLeafTest
  by_cases hrows : ∃ source, e.kind = .unnest source
  · obtain ⟨source, hkind⟩ := hrows
    simp only [hkind] at hpattern ⊢
    obtain rfl := Option.some.inj hpattern
    rw [ConditionElement.leafConstraints, List.all_map, List.all_eq_true]
    exact Iff.rfl
  · have hall := @all_filter_iff pattern.leaves (checkConstraint env heap · fact) fun c ↦
      checkJoin env heap b.bindingToIdx (b.fieldsOf e) token fact
        (normalizeInlineBoundField b.inlineBindingToField c)
    have hkind : ∀ source, e.kind ≠ .unnest source := fun source h ↦ hrows ⟨source, h⟩
    cases h : e.kind with
    | unnest source => exact absurd h (hkind source)
    | _ =>
      dsimp only
      rw [installedTests_eq, checkAllJoinConditions, List.all_map]
      exact hall

/-! ### The nodes that make them -/

open QueryNetwork

/-- The node of an element makes the tests of a pattern: of rows it makes them all, and of other
facts the join conditions, below the alpha nodes. -/
def QueryNetwork.MakesTests (net : QueryNetwork) (b : ChainBuilder) (e : ConditionElement)
    (pattern : FactPattern) (n : ℕ) : Prop :=
  match e.kind with
  | .unnest source =>
    net.node n = ⟨.unnest source e.factType b.bindingToIdx e.leafConstraints, b.lastNode.toList⟩
  | _ =>
    (net.kind n = b.nodeKind e pattern ∨ (net.kind n).equals (b.nodeKind e pattern) = true) ∧
      net.HasInput n b.lastNode (b.rightInput pattern)

theorem ChainBuilder.createNodeForPattern_makesTests {ctx : BuildContext} {base start : ℕ}
    {b : ChainBuilder} (hb : b.Inv ctx base start) {e : ConditionElement} {pattern : FactPattern}
    (hpattern : e.tested = some pattern) {n : ℕ} {net : QueryNetwork}
    (h : b.createNodeForPattern ctx e = .ok (n, net)) : net.MakesTests b e pattern n := by
  unfold ConditionElement.tested at hpattern
  unfold MakesTests
  cases hkind : e.kind with
  | unnest source =>
    unfold createNodeForPattern at h
    simp only [hkind] at h
    obtain ⟨rfl, rfl⟩ := Prod.mk.inj (Except.ok.inj h)
    exact createNode_self b.network _ _
  | _ =>
    rw [hkind] at hpattern
    exact createNodeForPattern_rightInput hb hpattern h

/-- The node that a pattern adds to a chain makes its tests, with the names known by then. -/
theorem ChainBuilder.addPattern_makesTests {ctx : BuildContext} {base start : ℕ}
    {b b' : ChainBuilder} (hb : b.Inv ctx base start) {e : ConditionElement}
    {pattern : FactPattern} (hpattern : e.tested = some pattern)
    (h : b.addPattern ctx e = .ok b') :
    ∃ n, b'.lastNode = some n ∧ b'.network.MakesTests (b.bindPattern e) e pattern n := by
  unfold addPattern at h
  split at h
  · cases h
  dsimp only at h
  split at h
  · cases h
  · next n net hcreate =>
    cases h
    have hmakes :=
      createNodeForPattern_makesTests ((sameNodes_bindPattern b e).inv hb) hpattern hcreate
    refine ⟨n, ?_, ?_⟩
    · rw [lastNode, (advance_spec _ ctx e).2.1, List.getLast?_concat]
      rfl
    · rw [(advance_spec _ ctx e).1]
      exact hmakes

end RulesForge
