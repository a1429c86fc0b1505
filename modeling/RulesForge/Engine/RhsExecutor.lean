import RulesForge.Engine.ConditionText
import RulesForge.Engine.Execution
import RulesForge.Rete.RuntimePredicates

/-!
# The executor of right-hand sides

The compiled actions of a rule and `RhsExecutor::execute_actions`
(`src/engine/rhs_executor.cpp`) with the check that is made of them when the knowledge base is
built, `CppRhsActionPlanBuilder::build` (`src/engine/cpp_rhs_action_plan_builder.cpp`).

A `break` and a `continue` set a **request flag** of the executor. Both flags are tested before
every action, and the innermost loop takes them back. A `for` loop shadows the binding of its
variable for the time of an iteration.

What an exception carries is its text; an expression that has no value and one whose variable is
not found both raise the exception of the action that evaluates it.
-/

namespace RulesForge

/-! ### Compiled actions -/

/-- What a field is assigned (`RhsValueType`). -/
inductive AssignedValue where
  | literal (value : ConstraintValue)
  | numeric (expression : Option (List Char))
  | string (text : String)
  | boolean (text : String)
  | varRef (ref : String)

structure FieldAssignment where
  fieldName : String
  value : AssignedValue

/-- A case of a `switch`, over the type of actions. -/
structure SwitchCase (α : Type) where
  value : Option (List Char) := none
  actions : List α
  isDefault : Bool := false

/-- `CompiledAction`; the expressions are their texts. -/
inductive CompiledAction where
  | update (targetVar : String) (assignments : List FieldAssignment)
  | insert (targetType : String) (assignments : List FieldAssignment)
  | insertLogical (targetType : String) (assignments : List FieldAssignment)
  | retract (targetVar : String)
  | halt
  | setFocus (focusGroup : String)
  | «if» (condition : Option (List Char)) (thenActions elseActions : List CompiledAction)
  | switch (switchExpr : Option (List Char)) (switchCases : List (SwitchCase CompiledAction))
  | «for» (iterVar : String) (iterSourceList : List String)
      (iterSourceVar iterSourceField : String) (bodyActions : List CompiledAction)
  | «while» (condition : Option (List Char)) (maxIterations : ℤ)
      (bodyActions : List CompiledAction)
  | «break»
  | «continue»

/-! ### The plan builder -/

mutual

/-- The reason for which an action is not lowered; `inLoop` tells whether a loop is around it. -/
def lowerAction (inLoop : Bool) : CompiledAction → Option String
  | .update _ _ => none
  | .insert _ _ => none
  | .insertLogical _ _ => none
  | .retract _ => none
  | .halt => none
  | .setFocus _ => none
  | .«if» condition thenActions elseActions =>
    if condition = none then some "condition_missing"
    else (appendActions inLoop thenActions).or (appendActions inLoop elseActions)
  | .switch switchExpr switchCases =>
    if switchExpr = none then some "condition_missing"
    else appendCases inLoop false none switchCases
  | .«for» _ _ _ _ bodyActions => appendActions true bodyActions
  | .«while» condition maxIterations bodyActions =>
    if condition = none then some "condition_missing"
    else if maxIterations ≤ 0 then some "while_limit_invalid"
    else appendActions true bodyActions
  | .«break» => if inLoop then none else some "control_flow_unsupported"
  | .«continue» => if inLoop then none else some "control_flow_unsupported"

/-- `append_actions`: the first reason. -/
def appendActions (inLoop : Bool) : List CompiledAction → Option String
  | [] => none
  | action :: actions => (lowerAction inLoop action).or (appendActions inLoop actions)

/-- The cases of a `switch` in turn, and then the last default that was met. -/
def appendCases (inLoop emitted : Bool) (default : Option (Option String)) :
    List (SwitchCase CompiledAction) → Option String
  | [] =>
    match default with
    | some reason => reason
    | none => if emitted then none else some "condition_missing"
  | ⟨value, actions, isDefault⟩ :: cases =>
    if isDefault then appendCases inLoop emitted (some (appendActions inLoop actions)) cases
    else if value = none then some "condition_missing"
    else (appendActions inLoop actions).or (appendCases inLoop true default cases)

end

/-- `CppRhsActionPlanBuilder::build`: the actions are accepted, or there is a reason. -/
def buildPlan (actions : List CompiledAction) (allowLoopControl : Bool) :
    Except String (List CompiledAction) :=
  match appendActions allowLoopControl actions with
  | some reason => .error reason
  | none => .ok actions

/-! ### Values and variables -/

/-- What a right-hand side is executed with: the token of the activation, the depths of its
variables, the declared types of fields, the globals of the session and the objects that are
created. -/
structure RhsContext where
  kb : KnowledgeBase
  steps : ℕ
  token : TokenWME
  bindings : Bindings
  library : NumberLibrary
  declaredType : String → String → Option FieldType := fun _ _ ↦ none
  globals : String → Option ConstraintValue := fun _ ↦ none
  allocate : Session → FactPtr

/-- The members of `RhsExecutor` that change, with the session. -/
structure RhsExecutor where
  state : FireState
  tempBindings : String → Option FactPtr := fun _ ↦ none
  breakRequested : Bool := false
  continueRequested : Bool := false

inductive RhsError where
  | message (text : String)
  | session (error : SessionError)

/-- A double that is an integer becomes one. -/
def integralDouble (value : ConstraintValue) : ConstraintValue :=
  match value with
  | .double (.finite x) =>
    let d : Double := .finite x
    if Dyadic.ofInt d.toInt = x ∧ fitsInt64 d.toInt then .int64 d.toInt else value
  | _ => value

def coerceNumericAssignmentToExistingType (current value : ConstraintValue) : ConstraintValue :=
  match current, value with
  | .int64 _, value => integralDouble value
  | .double _, .int64 i => .double (.ofInt i)
  | .uint64 _, .int64 i => if 0 ≤ i then .uint64 i.toNat else value
  | .duration _, .int64 i => .duration i
  | _, value => value

def coerceAssignmentToDeclaredType (declared : Option FieldType) (value : ConstraintValue) :
    ConstraintValue :=
  match declared, value with
  | some .int, value => integralDouble value
  | some .long, value => integralDouble value
  | some .uint64, .int64 i => if 0 ≤ i then .uint64 i.toNat else value
  | some .duration, .int64 i => .duration i
  | some .double, .int64 i => .double (.ofInt i)
  | some .float, .int64 i => .double (.ofInt i)
  | _, value => value

/-- `resolve_global_field`. -/
def resolveGlobalField (value : ConstraintValue) (fieldName : String) : Option ConstraintValue :=
  if fieldName = "this" then some value
  else
    match value with
    | .typedList values => if fieldName = "size" then some (.int64 values.length) else none
    | .valueSet values => if fieldName = "size" then some (.int64 values.length) else none
    | .valueMap entries =>
      if fieldName = "size" then some (.int64 entries.length)
      else
        (entries.find? fun entry ↦
          match entry.1 with
          | .string key => key = fieldName
          | _ => false).map Prod.snd
    | _ => none

/-- `values_equal_for_switch`. -/
def valuesEqualForSwitch (lhs rhs : ConstraintValue) : Bool :=
  match lhs, rhs with
  | .double d, .int64 i => exactDoubleEqual d (.ofInt i)
  | .int64 i, .double d => exactDoubleEqual (.ofInt i) d
  | lhs, rhs =>
    match scalarText lhs, scalarText rhs with
    | some a, some b => decide (a = b)
    | _, _ => literalEquals lhs rhs

namespace RhsExecutor

variable (ctx : RhsContext) (x : RhsExecutor)

/-- `get_bound_fact`: a loop variable shadows a variable of the rule. -/
def getBoundFact (varName : String) : Option FactPtr :=
  if varName = "" then none
  else
    match x.tempBindings varName with
    | some fact => if fact = 0 then none else some fact
    | none =>
      if varName.toList.head? = some '$' then
        (ctx.bindings.lookup varName).bind ctx.token.getFactAtDepth
      else none

/-- `get_global_value`. -/
def getGlobalValue (name : String) : Option ConstraintValue :=
  match name.toList with
  | '$' :: rest => ctx.globals (String.ofList rest)
  | _ => ctx.globals name

/-- `resolve_variable`, or the text of its exception. -/
def resolveVariable (varName : List Char) : Except String ConstraintValue :=
  let base := String.ofList (varName.takeWhile (· ≠ '.'))
  let field :=
    match varName.dropWhile (· ≠ '.') with
    | [] => "this"
    | _ :: field => String.ofList field
  match x.getBoundFact ctx base with
  | some fact =>
    if field = "this" then .ok .nil
    else
      match getField x.state.session.heap fact field with
      | some value => .ok value
      | none => .error ("RHS variable field '" ++ base ++ "." ++ field ++ "' not found")
  | none =>
    match getGlobalValue ctx base with
    | none => .error ("RHS variable '" ++ base ++ "' not found")
    | some global =>
      match resolveGlobalField global field with
      | some value => .ok value
      | none => .error ("RHS global field '" ++ base ++ "." ++ field ++ "' not found")

def evaluateValue (expression : List Char) : Option ConstraintValue :=
  evaluateSimpleRhsValue ctx.library (fun name ↦ (x.resolveVariable ctx name).toOption) expression

def evaluateCondition (expression : List Char) : Option Bool :=
  evaluateSimpleRhsCondition ctx.library (fun name ↦ (x.resolveVariable ctx name).toOption)
    expression

/-- `evaluate_assignment`. -/
def evaluateAssignment (value : AssignedValue) : Except RhsError ConstraintValue :=
  match value with
  | .literal value => .ok value
  | .numeric none => .error (.message "RHS numeric assignment is missing an expression")
  | .numeric (some expression) =>
    match x.evaluateValue ctx expression with
    | some value => .ok value
    | none =>
      .error (.message ("RHS numeric expression is not supported by C++ expression evaluator: " ++
        String.ofList expression))
  | .string text => .ok (.string text)
  | .boolean text => .ok (.bool (text = "true"))
  | .varRef ref =>
    if '.' ∈ ref.toList then (x.resolveVariable ctx ref.toList).mapError .message
    else
      match x.getBoundFact ctx ref with
      | some fact => .ok (.int64 (x.state.session.heap fact).id)
      | none =>
        match getGlobalValue ctx ref with
        | some global => .ok global
        | none => .error (.message ("RHS variable '" ++ ref ++ "' not found"))

/-! ### Session calls -/

/-- A call to the session. -/
def call (action : RhsAction) : RhsExecutor × Option RhsError :=
  match action.run ctx.kb ctx.steps ctx.token x.state with
  | (state, error) => ({ x with state := state }, error.map .session)

/-- The two coercions of an assigned value; a literal goes through them the other way round. -/
def coerceAssignment (value : AssignedValue) (current : Option ConstraintValue)
    (declared : Option FieldType) (evaluated : ConstraintValue) : ConstraintValue :=
  match current with
  | none => coerceAssignmentToDeclaredType declared evaluated
  | some current =>
    match value with
    | .literal _ =>
      coerceAssignmentToDeclaredType declared
        (coerceNumericAssignmentToExistingType current evaluated)
    | _ =>
      coerceNumericAssignmentToExistingType current
        (coerceAssignmentToDeclaredType declared evaluated)

/-- The assignments of an update in turn; a field that has the value already is left. -/
def assignFields (fact : FactPtr) : List FieldAssignment → Bool → ModifiedFieldsHint →
    RhsExecutor → RhsExecutor × Option RhsError
  | [], changed, hint, x =>
    if changed then x.call ctx (.propagate fact (if hint.overflow then none else some hint))
    else (x, none)
  | assign :: assignments, changed, hint, x =>
    match x.evaluateAssignment ctx assign.value with
    | .error error => (x, some error)
    | .ok evaluated =>
      let target := x.state.session.heap fact
      let current := target.fields.lookup assign.fieldName
      let value := coerceAssignment assign.value current
        (ctx.declaredType target.type assign.fieldName) evaluated
      if current.any (literalEquals · value) then assignFields fact assignments changed hint x
      else
        match x.call ctx (.assign fact (AssocMap.insert assign.fieldName value target.fields)) with
        | (x, some error) => (x, some error)
        | (x, none) => assignFields fact assignments true (hint.add assign.fieldName) x

def executeUpdate (targetVar : String) (assignments : List FieldAssignment) :
    RhsExecutor × Option RhsError :=
  match x.getBoundFact ctx targetVar with
  | none => (x, some (.message ("RHS update target '" ++ targetVar ++ "' not found")))
  | some fact => assignFields ctx fact assignments false ⟨[], false⟩ x

/-- The fields of a created fact. -/
def createdFields (type : String) : List FieldAssignment → List (String × ConstraintValue) →
    Except RhsError (List (String × ConstraintValue))
  | [], fields => .ok fields
  | assign :: assignments, fields =>
    match x.evaluateAssignment ctx assign.value with
    | .error error => .error error
    | .ok value =>
      createdFields type assignments (AssocMap.insert assign.fieldName
        (coerceAssignmentToDeclaredType (ctx.declaredType type assign.fieldName) value) fields)

/-- What the two insertions have in common: a fact is created and given to a session call. -/
def executeCreate (targetType : String) (assignments : List FieldAssignment)
    (action : FactPtr → String → List (String × ConstraintValue) → RhsAction) :
    RhsExecutor × Option RhsError :=
  match ctx.kb.canonicalizeTypeName targetType with
  | none => (x, some (.session .ambiguousType))
  | some type =>
    match x.createdFields ctx type assignments [] with
    | .error error => (x, some error)
    | .ok fields => x.call ctx (action (ctx.allocate x.state.session) type fields)

def executeInsert (targetType : String) (assignments : List FieldAssignment) :
    RhsExecutor × Option RhsError :=
  x.executeCreate ctx targetType assignments .insert

def executeInsertLogical (targetType : String) (assignments : List FieldAssignment) :
    RhsExecutor × Option RhsError :=
  x.executeCreate ctx targetType assignments .insertLogical

def executeRetract (targetVar : String) : RhsExecutor × Option RhsError :=
  match x.getBoundFact ctx targetVar with
  | none => (x, some (.message ("RHS retract target '" ++ targetVar ++ "' not found")))
  | some fact => x.call ctx (.retract fact)

def withSession (session : Session) : RhsExecutor :=
  { x with state := { x.state with session := session } }

/-- The facts of type `Iterator` that stand for the values of a list. -/
def createIterators : List ConstraintValue → RhsExecutor →
    RhsExecutor × Except RhsError (List FactPtr)
  | [], x => (x, .ok [])
  | value :: values, x =>
    match ctx.kb.canonicalizeTypeName "Iterator" with
    | none => (x, .error (.session .ambiguousType))
    | some type =>
      let fact := ctx.allocate x.state.session
      match createIterators values
        (x.withSession (createFact fact type [("value", value)] x.state.session)) with
      | (y, .ok items) => (y, .ok (fact :: items))
      | failed => failed

/-- The facts that the variables of a list denote. -/
def listItems : List String → Except RhsError (List FactPtr)
  | [] => .ok []
  | var :: vars =>
    match x.getBoundFact ctx var with
    | none => .error (.message ("RHS for source list variable '" ++ var ++ "' not found"))
    | some fact => (listItems vars).map (fact :: ·)

/-- `collect_for_items`. -/
def collectForItems (iterSourceList : List String) (iterSourceVar iterSourceField : String) :
    RhsExecutor × Except RhsError (List FactPtr) :=
  if iterSourceList ≠ [] then (x, x.listItems ctx iterSourceList)
  else
    match x.getBoundFact ctx iterSourceVar with
    | none =>
      match getGlobalValue ctx iterSourceVar with
      | none => (x, .error (.message ("RHS for source '" ++ iterSourceVar ++ "' not found")))
      | some (.factList facts) => (x, .ok (facts.filter (· ≠ 0)))
      | some (.typedList values) => createIterators ctx values x
      | some (.valueSet values) => createIterators ctx values x
      | some _ =>
        (x, .error (.message ("RHS for source '" ++ iterSourceVar ++ "' is not iterable")))
    | some fact =>
      let path := iterSourceVar ++ "." ++ iterSourceField
      match getField x.state.session.heap fact iterSourceField with
      | none => (x, .error (.message ("RHS for field '" ++ path ++ "' not found")))
      | some (.factList facts) => (x, .ok (facts.filter (· ≠ 0)))
      | some (.typedList values) => createIterators ctx values x
      | some _ => (x, .error (.message ("RHS for field '" ++ path ++ "' is not iterable")))

/-! ### Loops -/

/-- The iterations of a `for` loop. The binding that the loop variable shadows is put back after
every iteration, also when an exception leaves it. -/
def forLoop (iterVar : String) (body : RhsExecutor → RhsExecutor × Option RhsError) :
    List FactPtr → RhsExecutor → RhsExecutor × Option RhsError
  | [], x => (x, none)
  | item :: items, x =>
    let entered := { x with tempBindings := Function.update x.tempBindings iterVar (some item) }
    match body entered with
    | (y, error) =>
      let restored :=
        { y with tempBindings := Function.update y.tempBindings iterVar (x.tempBindings iterVar) }
      match error with
      | some error => (restored, some error)
      | none =>
        if restored.breakRequested then ({ restored with breakRequested := false }, none)
        else forLoop iterVar body items { restored with continueRequested := false }

/-- The iterations of a `while` loop from a number of them on. -/
def whileLoop (condition : RhsExecutor → Option Bool) (unsupported : RhsError)
    (maxIterations : ℤ) (body : RhsExecutor → RhsExecutor × Option RhsError)
    (iterations : ℤ) (x : RhsExecutor) : RhsExecutor × Option RhsError :=
  match condition x with
  | none => (x, some unsupported)
  | some false => (x, none)
  | some true =>
    if maxIterations ≤ iterations then
      (x, some (.message "RHS while loop hit max iterations"))
    else
      match body x with
      | (y, some error) => (y, some error)
      | (y, none) =>
        if y.breakRequested then ({ y with breakRequested := false }, none)
        else
          whileLoop condition unsupported maxIterations body (iterations + 1)
            { y with continueRequested := false }
termination_by (maxIterations - iterations).toNat
decreasing_by omega

/-- The exception of a condition or an expression that has no value. -/
def unsupported (what : String) (expression : List Char) : RhsError :=
  .message ("RHS " ++ what ++ " is not supported by C++ expression evaluator: " ++
    String.ofList expression)

/-! ### Actions -/

/-- The test of the two request flags before an action. -/
def unlessRequested (x : RhsExecutor) (run : RhsExecutor × Option RhsError) :
    RhsExecutor × Option RhsError :=
  if x.breakRequested || x.continueRequested then (x, none) else run

mutual

/-- `execute_action`. -/
def executeAction (x : RhsExecutor) : CompiledAction → RhsExecutor × Option RhsError
  | .update targetVar assignments =>
    x.unlessRequested (x.executeUpdate ctx targetVar assignments)
  | .insert targetType assignments =>
    x.unlessRequested (x.executeInsert ctx targetType assignments)
  | .insertLogical targetType assignments =>
    x.unlessRequested (x.executeInsertLogical ctx targetType assignments)
  | .retract targetVar => x.unlessRequested (x.executeRetract ctx targetVar)
  | .halt => x.unlessRequested (x.call ctx .halt)
  | .setFocus focusGroup => x.unlessRequested (x.call ctx (.setFocus focusGroup))
  | .«if» condition thenActions elseActions =>
    x.unlessRequested <|
      match condition with
      | none => (x, some (.message "RHS if action is missing a condition"))
      | some condition =>
        match x.evaluateCondition ctx condition with
        | none => (x, some (unsupported "if condition" condition))
        | some true => executeActions x thenActions
        | some false => executeActions x elseActions
  | .switch switchExpr switchCases =>
    x.unlessRequested <|
      match switchExpr with
      | none => (x, some (.message "RHS switch action is missing an expression"))
      | some switchExpr =>
        match x.evaluateValue ctx switchExpr with
        | none => (x, some (unsupported "switch expression" switchExpr))
        | some value => executeCases value (x, none) x switchCases
  | .«for» iterVar iterSourceList iterSourceVar iterSourceField bodyActions =>
    x.unlessRequested <|
      match x.collectForItems ctx iterSourceList iterSourceVar iterSourceField with
      | (y, .error error) => (y, some error)
      | (y, .ok items) => forLoop iterVar (fun z ↦ executeActions z bodyActions) items y
  | .«while» condition maxIterations bodyActions =>
    x.unlessRequested <|
      match condition with
      | none => (x, some (.message "RHS while action is missing a condition"))
      | some condition =>
        if maxIterations ≤ 0 then
          (x, some (.message "RHS while loop requires positive max iterations"))
        else
          whileLoop (fun y ↦ y.evaluateCondition ctx condition)
            (unsupported "while condition" condition) maxIterations
            (fun y ↦ executeActions y bodyActions) 0 x
  | .«break» => x.unlessRequested ({ x with breakRequested := true }, none)
  | .«continue» => x.unlessRequested ({ x with continueRequested := true }, none)

/-- `execute_actions`. -/
def executeActions (x : RhsExecutor) : List CompiledAction → RhsExecutor × Option RhsError
  | [] => (x, none)
  | action :: actions =>
    if x.breakRequested || x.continueRequested then (x, none)
    else
      match executeAction x action with
      | (y, some error) => (y, some error)
      | (y, none) => executeActions y actions

/-- The cases of a `switch` in turn. `fallback` is the run of the last default that was met. -/
def executeCases (value : ConstraintValue) (fallback : RhsExecutor × Option RhsError)
    (x : RhsExecutor) : List (SwitchCase CompiledAction) → RhsExecutor × Option RhsError
  | [] => fallback
  | ⟨caseValue, actions, isDefault⟩ :: cases =>
    if isDefault then executeCases value (executeActions x actions) x cases
    else
      match caseValue with
      | none => executeCases value fallback x cases
      | some expression =>
        match x.evaluateValue ctx expression with
        | none => (x, some (unsupported "switch case expression" expression))
        | some evaluated =>
          if valuesEqualForSwitch value evaluated then executeActions x actions
          else executeCases value fallback x cases

end

end RhsExecutor

end RulesForge
