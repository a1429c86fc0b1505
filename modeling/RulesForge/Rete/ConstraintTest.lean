import RulesForge.Core.Fact

/-!
# Run-time tests of leaf constraints

The test of an alpha node on one fact (`AlphaNode::check_constraint`) and the test of the
join conditions on a token and a fact (`check_all_join_conditions`), both in
`src/rete/rete_node.cpp`.

The value of an arithmetic expression on the right of a comparison comes from the text
evaluator `evaluate_runtime_expression`, and that of an `eval(...)` from the one of eval nodes. Both
are parameters here: `RuntimeEnv`. Nothing below looks into them.
-/

namespace RulesForge

/-- `std::map<std::string, int>`: the position in the token of the fact a variable is bound
to. -/
abbrev Bindings := List (String × ℕ)

/-- `std::map<std::string, std::string>`: the field an inline variable stands for. -/
abbrev ScalarFields := List (String × String)

/-- The evaluator of arithmetic expression texts, on the tested fact, the token and the
variables in scope; an alpha node has neither token nor variables. Eval nodes use the evaluator of
boolean texts, or the predicate that their expression has been compiled to. -/
structure RuntimeEnv where
  evaluateRuntimeExpression : Heap → String → FactPtr →
    Option (TokenWME × Bindings × ScalarFields) → Option ConstraintValue
  evaluateRuntimeBooleanExpression : Heap → String → FactPtr →
    Option (TokenWME × Bindings × ScalarFields) → Option Bool := fun _ _ _ _ ↦ none
  runtimePredicate : String → List ConstraintValue → Option Bool := fun _ _ ↦ none

variable (env : RuntimeEnv) (heap : Heap)

/-- The ids by which fact lists are compared. -/
def factIds : FactPtr → ℤ := fun p ↦ (heap p).id

/-! ### Alpha tests -/

/-- The left-hand side of an alpha test. The path is parsed when the node is built; a name
whose path comes out empty is looked up as it stands. -/
def alphaField (fact : FactPtr) (name : String) : Option ConstraintValue :=
  if isPath name ∧ parseFieldPath name ≠ [] then
    getFieldFrom heap fact none (parseFieldPath name)
  else if name = "this" then some (.int64 (heap fact).id)
  else (heap fact).fields.lookup name

/-- The right-hand side of an alpha test; a constraint that names none compares with nil. -/
def alphaRightValue (c : ParsedConstraint) (fact : FactPtr) : Option ConstraintValue :=
  match c.rightArithExpr with
  | some expression => env.evaluateRuntimeExpression heap expression fact none
  | none => some (c.rightLiteral.getD .nil)

/-- `AlphaNode::check_constraint`. A constraint without operator and literal is a pure
binding and always passes. -/
def checkConstraint (c : ParsedConstraint) (fact : FactPtr) : Bool :=
  if c.op = .none ∧ c.rightLiteral.isNone then true
  else
    match alphaField heap fact c.leftField, alphaRightValue env heap c fact with
    | some lhs, some rhs => evaluateCompare (factIds heap) c.op lhs rhs
    | _, _ => false

/-- The fields changed by a modification, when the caller names them. Up to four fields are
kept; past that the hint overflows and contains every field. -/
structure ModifiedFieldsHint where
  fields : List String
  overflow : Bool
  deriving DecidableEq, Repr

def ModifiedFieldsHint.contains (hint : ModifiedFieldsHint) (field : String) : Bool :=
  hint.overflow || hint.fields.contains field

/-- `ModifiedFieldsHint::add`. -/
def ModifiedFieldsHint.add (hint : ModifiedFieldsHint) (field : String) : ModifiedFieldsHint :=
  if hint.overflow ∨ field ∈ hint.fields then hint
  else if hint.fields.length < 4 then { hint with fields := hint.fields ++ [field] }
  else { hint with overflow := true }

/-- The part of a field name before its first separator or index. -/
def fieldRoot (name : String) : String :=
  match parseFieldPath name with
  | segment :: _ =>
    if isPath name ∧ segment.name ≠ "" then segment.name
    else String.ofList (name.toList.takeWhile fun c ↦ c ≠ '.' ∧ c ≠ '[')
  | [] => String.ofList (name.toList.takeWhile fun c ↦ c ≠ '.' ∧ c ≠ '[')

/-- Whether a modification can change the outcome of an alpha test. -/
def alphaConstraintAffected (c : ParsedConstraint) (hint : Option ModifiedFieldsHint) : Bool :=
  match hint with
  | none => true
  | some changed =>
    if c.rightArithExpr.isSome ∨ c.leftField = "this" ∨ c.leftField = "" then true
    else if fieldRoot c.leftField = "" then true
    else changed.contains (fieldRoot c.leftField)

/-! ### Join tests -/

section Join

variable (bindings : Bindings) (scalarFields : ScalarFields) (token : TokenWME) (fact : FactPtr)

/-- The fact a variable denotes: the fact at its position in the token, or the tested fact
itself when the variable is bound by the current pattern, past the end of the token. -/
def boundFact (binding : String) : Option FactPtr :=
  match bindings.lookup binding with
  | none => none
  | some idx =>
    match token.getFactAtDepth idx with
    | some p => some p
    | none => if token.depth ≤ idx then some fact else none

/-- The temporal branch of the loop over the join conditions. The variable must be bound by
an earlier pattern, and both time stamps must be signed integers. -/
def checkTemporal (tc : ParsedTemporalConstraint) : Bool :=
  match bindings.lookup tc.rhsBindingAndField.1 with
  | none => false
  | some idx =>
    match token.getFactAtDepth idx with
    | none => false
    | some bound =>
      match getField heap fact tc.lhsField, getField heap bound tc.rhsBindingAndField.2 with
      | some (.int64 lhs), some (.int64 rhs) => evaluateTemporal tc.op lhs rhs tc.windowMs
      | _, _ => false

/-- The left-hand side of a join condition. -/
def joinLeftValue (c : ParsedConstraint) : Option ConstraintValue :=
  match c.leftBinding with
  | none => getField heap fact c.leftField
  | some binding =>
    match boundFact bindings token fact binding with
    | none => none
    | some bound => getField heap bound c.leftField

/-- One round of `check_all_join_conditions`. A condition without a right-hand side is
skipped once its left variable is found. -/
def checkJoin (c : ParsedConstraint) : Bool :=
  match c.temporalConstraint with
  | some tc => checkTemporal heap bindings token fact tc
  | none =>
    let compareWith (rhs : Option ConstraintValue) : Bool :=
      match joinLeftValue heap bindings token fact c, rhs with
      | some lhs, some rhs => evaluateCompare (factIds heap) c.op lhs rhs
      | _, _ => false
    match c.rightBoundField, c.rightArithExpr, c.rightLiteral with
    | some (binding, field), _, _ =>
      compareWith ((boundFact bindings token fact binding).bind (getField heap · field))
    | none, some expression, _ =>
      compareWith (env.evaluateRuntimeExpression heap expression fact
        (some (token, bindings, scalarFields)))
    | none, none, some literal => compareWith (some literal)
    | none, none, none =>
      match c.leftBinding with
      | none => true
      | some binding => (boundFact bindings token fact binding).isSome

/-- `check_all_join_conditions`. -/
def checkAllJoinConditions (joins : List ParsedConstraint) : Bool :=
  joins.all (checkJoin env heap bindings scalarFields token fact)

end Join

/-! ### Which leaves are join conditions -/

/-- `std::isalnum` or an underscore. -/
def isIdentifierChar (c : Char) : Bool :=
  c.isAlphanum || c = '_'

/-- The scan of `expression_references_dotted_binding`. After each variable the character
that ended it is skipped, whatever it is. -/
def referencesDottedBindingFrom : ℕ → List Char → Bool
  | 0, _ => false
  | fuel + 1, text =>
    match text with
    | [] => false
    | c :: rest =>
      if c ≠ '$' then referencesDottedBindingFrom fuel rest
      else
        match rest.dropWhile isIdentifierChar with
        | [] => false
        | '.' :: _ => true
        | _ :: rest => referencesDottedBindingFrom fuel rest

def expressionReferencesDottedBinding (expression : String) : Bool :=
  referencesDottedBindingFrom expression.length expression.toList

/-- A leaf is a join condition when it needs the token. -/
def ParsedConstraint.isJoin (c : ParsedConstraint) : Bool :=
  c.rightBoundField.isSome || c.temporalConstraint.isSome ||
    c.rightArithExpr.any expressionReferencesDottedBinding

end RulesForge
