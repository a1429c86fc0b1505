import RulesForge.Engine.ArithmeticValue
import RulesForge.Engine.ExpressionVariables
import RulesForge.Rete.CompiledChains
import RulesForge.Rete.DirectEvaluation
import RulesForge.Rete.PatternTests

/-!
# What the variables of an expression are bound to

`resolve_expression_variable` (`src/rete/rete_node.cpp`) gives a variable of an arithmetic
expression its value. A join or condition node calls it with the token and with what the builder
has collected: the positions of the variables and the fields of the inline ones. An alpha node
calls it with neither, and every variable is then a field of the tested fact.

The builder decides by the text which node that is (`partition_constraints`).
-/

namespace RulesForge

/-! ### Resolving a variable -/

/-- A name and the path after its first dot. -/
def splitAtDot (text : List Char) : Option (List Char × List Char) :=
  if '.' ∈ text then some (text.takeWhile (· ≠ '.'), (text.dropWhile (· ≠ '.')).tail) else none

theorem splitAtDot_eq_some {text name path : List Char} (h : splitAtDot text = some (name, path)) :
    text = name ++ '.' :: path ∧ text.takeWhile (· ≠ '.') = name := by
  unfold splitAtDot at h
  split at h
  · next hmem =>
    cases h
    refine ⟨?_, rfl⟩
    have hjoin := @List.takeWhile_append_dropWhile _ (fun c ↦ decide (c ≠ '.')) text
    cases hdrop : text.dropWhile fun c ↦ decide (c ≠ '.') with
    | nil => exact absurd (List.dropWhile_eq_nil_iff.mp hdrop '.' hmem) (by simp)
    | cons c rest =>
      have hdot := List.head?_dropWhile_not (fun c ↦ decide (c ≠ '.')) text
      rw [hdrop] at hdot hjoin
      obtain rfl : c = '.' := by simpa using hdot
      exact hjoin.symm
  · cases h

theorem takeWhile_of_splitAtDot_none {text : List Char} (h : splitAtDot text = none) :
    text.takeWhile (· ≠ '.') = text := by
  unfold splitAtDot at h
  split at h
  · cases h
  · next hnot =>
    refine List.takeWhile_eq_self_iff.mpr fun c hc ↦ decide_eq_true ?_
    rintro rfl
    exact hnot hc

/-- The field of an inline variable, whose name is looked up with its `$` and without it. -/
def scalarBindingField (fields : ScalarFields) (name : List Char) : Option String :=
  (fields.lookup (String.ofList name)).or
    (if name.head? = some '$' then fields.lookup (String.ofList name.tail) else none)

/-- The position of a variable, whose name is looked up as it is, and with a `$` or without it. -/
def bindingPosition (bindings : Bindings) (name : List Char) : Option ℕ :=
  (bindings.lookup (String.ofList name)).or
    (if name = [] then none
    else if name.head? = some '$' then bindings.lookup (String.ofList name.tail)
    else bindings.lookup (String.ofList ('$' :: name)))

/-- A name with a `$` is looked up with it and without it. -/
theorem scalarBindingField_cons (fields : ScalarFields) (letters : List Char) :
    scalarBindingField fields ('$' :: letters) =
      (fields.lookup (String.ofList ('$' :: letters))).or
        (fields.lookup (String.ofList letters)) := rfl

theorem bindingPosition_cons (bindings : Bindings) (letters : List Char) :
    bindingPosition bindings ('$' :: letters) =
      (bindings.lookup (String.ofList ('$' :: letters))).or
        (bindings.lookup (String.ofList letters)) := rfl

section Resolve

variable (heap : Heap) (fact : FactPtr)

/-- The field that is read at the end. -/
def readField (fact : FactPtr) (field : String) : Option ConstraintValue :=
  if field = "this" then some (.int64 (heap fact).id) else getField heap fact field

/-- The field of the fact at a position. A position that the token has no fact for is that of the
tested fact, if it is past the end. -/
def sourceField (token : TokenWME) (position : ℕ) (field : String) : Option ConstraintValue :=
  match token.getFactAtDepth position with
  | some source => readField heap source field
  | none => if position < token.depth then none else readField heap fact field

/-- The name a variable is looked up by, the field it reads, and whether that is the field of an
inline variable. -/
def expressionField (fields : Option ScalarFields) (name : List Char) :
    List Char × String × Bool :=
  match splitAtDot name with
  | some (binding, path) => (trimAscii binding, String.ofList (trimAscii path), false)
  | none =>
    match fields with
    | none => (name, if name.head? = some '$' then String.ofList name.tail else "this", false)
    | some fields =>
      match scalarBindingField fields name with
      | some field => (name, field, true)
      | none => (name, "this", false)

/-- `resolve_expression_variable`, on a join or condition node with the token and the names in
scope, and on an alpha node without. -/
def resolveExpressionVariable (scope : Option (TokenWME × Bindings × ScalarFields))
    (name : List Char) : Option ConstraintValue :=
  let (binding, field, mapped) := expressionField (scope.map (·.2.2)) name
  match scope with
  | none => readField heap fact field
  | some (token, bindings, _) =>
    match bindingPosition bindings binding with
    | some position => sourceField heap fact token position field
    | none =>
      if !mapped ∧ binding = name ∧ name.head? = some '$' then
        readField heap fact (String.ofList name.tail)
      else if binding ≠ name ∨ mapped then none
      else readField heap fact field

end Resolve

/-- The evaluator of arithmetic expressions in patterns, `evaluate_runtime_expression`. -/
def reteEnv (library : NumberLibrary) : RuntimeEnv where
  evaluateRuntimeExpression heap expression fact scope :=
    evaluateSimpleRuntimeExpression library (resolveExpressionVariable heap fact scope)
      expression.toList

theorem readField_eq_getField (heap : Heap) (fact : FactPtr) (field : String) :
    readField heap fact field = getField heap fact field := by
  unfold readField getField
  split <;> rfl

/-! ### Declarations -/

/-- What a pattern declares: a variable for its fact, or an inline variable for a field of it. -/
structure Declaration where
  name : String
  position : ℕ
  field : Option String

/-- The declaration of a name, the first one. -/
def declarationOf (decls : List Declaration) (name : String) : Option Declaration :=
  decls.find? (·.name = name)

/-- The declarations of a pattern whose fact stands at a position. -/
def ConditionElement.declarations (position : ℕ) (e : ConditionElement) : List Declaration :=
  (if e.binding = "" then [] else [⟨e.binding, position, none⟩]) ++
    e.leaves.filterMap fun c ↦ c.fieldBinding.map (⟨·, position, some c.leftField⟩)

/-- The outputs of a query call, one position each. -/
def outputDeclarations : ℕ → List String → List Declaration
  | _, [] => []
  | position, name :: names => ⟨name, position, none⟩ :: outputDeclarations (position + 1) names

/-- The parameters of a query, one position each. -/
def parameterDeclarations : ℕ → List ConditionElement → List Declaration
  | _, [] => []
  | position, e :: es =>
    (if e.binding = "" then [] else [⟨e.binding, position, none⟩]) ++
      parameterDeclarations (position + 1) es

/-- The declarations of a list of patterns, from a position on. -/
def declarationsFrom (ctx : BuildContext) : ℕ → List ConditionElement → List Declaration
  | _, [] => []
  | position, e :: es =>
    e.declarations position ++ (outputDeclarations position (e.outputs ctx) ++
      declarationsFrom ctx (position + e.width ctx) es)

/-- The declarations of a rule's patterns, or of a query's, which begin with its parameters. -/
def declarationsOf (ctx : BuildContext) (parameterCount : ℕ) (patterns : List ConditionElement) :
    List Declaration :=
  parameterDeclarations 0 (patterns.take parameterCount) ++
    declarationsFrom ctx parameterCount (patterns.drop parameterCount)

/-- The name of a variable, a `$` and letters of an identifier. -/
def IsVariableName (name : String) : Prop :=
  ∃ letters, name = String.ofList ('$' :: letters) ∧ letters.all isIdentifierChar = true

section Names

variable {decls decls' : List Declaration} {d : Declaration} {name : String}

theorem declarationOf_append :
    declarationOf (decls ++ decls') name =
      (declarationOf decls name).or (declarationOf decls' name) := by
  rw [declarationOf, List.find?_append]
  rfl

theorem declarationOf_eq_none_iff :
    declarationOf decls name = none ↔ name ∉ decls.map (·.name) := by
  rw [declarationOf, List.find?_eq_none, List.mem_map]
  simp

theorem name_of_declarationOf (h : declarationOf decls name = some d) :
    d ∈ decls ∧ d.name = name := by
  have hname := List.find?_some h
  exact ⟨List.mem_of_find?_eq_some h, of_decide_eq_true hname⟩

end Names

/-! ### What the builder knows of them -/

namespace ChainBuilder

/-- A declaration taken up. -/
def declare (b : ChainBuilder) (d : Declaration) : ChainBuilder :=
  { b with
    bindingToIdx := SortedMap.insert d.name d.position b.bindingToIdx
    inlineBindingToField :=
      match d.field with
      | some field => SortedMap.insert d.name field b.inlineBindingToField
      | none => b.inlineBindingToField }

/-- What the builder has collected are the declarations so far. -/
structure Declares (b : ChainBuilder) (decls : List Declaration) : Prop where
  position : ∀ name, b.bindingToIdx.lookup name = (declarationOf decls name).map (·.position)
  field : ∀ name, b.inlineBindingToField.lookup name = (declarationOf decls name).bind (·.field)

variable {ctx : BuildContext} {b b' : ChainBuilder} {decls decls' : List Declaration}
  {d : Declaration} {e : ConditionElement}

theorem Declares.declare (h : b.Declares decls) (hnew : d.name ∉ decls.map (·.name)) :
    (b.declare d).Declares (decls ++ [d]) := by
  have hnone : declarationOf decls d.name = none := declarationOf_eq_none_iff.mpr hnew
  have hself : declarationOf [d] d.name = some d := by simp [declarationOf]
  have hother : ∀ {name}, name ≠ d.name → declarationOf [d] name = none := by
    intro name hne
    simp [declarationOf, Ne.symm hne]
  constructor
  · intro name
    rw [declarationOf_append]
    show (SortedMap.insert d.name d.position b.bindingToIdx).lookup name = _
    by_cases hname : name = d.name
    · rw [hname, SortedMap.lookup_insert_self, hnone, Option.none_or, hself]
      rfl
    · rw [SortedMap.lookup_insert_ne hname, h.position, hother hname, Option.or_none]
  · intro name
    rw [declarationOf_append]
    unfold ChainBuilder.declare
    by_cases hname : name = d.name
    · rw [hname, hnone, Option.none_or, hself]
      cases hfield : d.field with
      | some field => exact (SortedMap.lookup_insert_self ..).trans hfield.symm
      | none =>
        show b.inlineBindingToField.lookup d.name = _
        rw [h.field, hnone]
        exact hfield.symm
    · rw [hother hname, Option.or_none]
      cases hfield : d.field with
      | some field => exact (SortedMap.lookup_insert_ne hname ..).trans (h.field name)
      | none => exact h.field name

/-- Names that are all different are all known. -/
theorem Declares.foldl (h : b.Declares decls) (hnames : ((decls ++ decls').map (·.name)).Nodup) :
    (decls'.foldl ChainBuilder.declare b).Declares (decls ++ decls') := by
  induction decls' generalizing b decls with
  | nil => rwa [List.append_nil]
  | cons d decls' ih =>
    have hsplit : decls ++ d :: decls' = (decls ++ [d]) ++ decls' := by simp
    rw [hsplit] at hnames ⊢
    refine ih (h.declare ?_) hnames
    intro hmem
    rw [List.map_append, List.map_append] at hnames
    exact (List.nodup_append.mp (List.nodup_append.mp hnames).1).2.2 _ hmem _ (by simp) rfl

/-- Declarations do not depend on the rest of the builder. -/
theorem Declares.congr (h : b.Declares decls) (hbindings : b'.bindingToIdx = b.bindingToIdx)
    (hfields : b'.inlineBindingToField = b.inlineBindingToField) : b'.Declares decls :=
  ⟨fun name ↦ hbindings ▸ h.position name, fun name ↦ hfields ▸ h.field name⟩

/-- The inline variables of a pattern are its last declarations. -/
theorem collectInlineBindings_eq_foldl (leaves : List ParsedConstraint) (b : ChainBuilder) :
    b.collectInlineBindings leaves =
      (leaves.filterMap fun c ↦ c.fieldBinding.map (⟨·, b.patternDepth, some c.leftField⟩)).foldl
        ChainBuilder.declare b := by
  induction leaves generalizing b with
  | nil => rfl
  | cons c leaves ih =>
    unfold collectInlineBindings at ih ⊢
    rw [List.foldl_cons]
    cases hbinding : c.fieldBinding with
    | none =>
      rw [List.filterMap_cons_none (by rw [hbinding]; rfl)]
      exact ih b
    | some name =>
      rw [List.filterMap_cons_some (by rw [hbinding]; rfl)]
      exact ih _

/-- A pattern takes up its declarations before its node is built. -/
theorem bindPattern_eq_foldl (b : ChainBuilder) (e : ConditionElement) :
    b.bindPattern e = (e.declarations b.patternDepth).foldl ChainBuilder.declare b := by
  rw [bindPattern, collectInlineBindings_eq_foldl, ConditionElement.declarations, List.foldl_append]
  by_cases hbinding : e.binding = ""
  · rw [if_pos hbinding, if_pos hbinding]
    rfl
  · rw [if_neg hbinding, if_neg hbinding]
    rfl

theorem Declares.bindPattern (hb : b.Declares decls)
    (hnames : ((decls ++ e.declarations b.patternDepth).map (·.name)).Nodup) :
    (b.bindPattern e).Declares (decls ++ e.declarations b.patternDepth) := by
  rw [bindPattern_eq_foldl]
  exact hb.foldl hnames

/-- The outputs of a query call are taken up one after the other. -/
theorem Declares.projectOutputs {outputs : List String} (hb : b.Declares decls)
    (hnames : ((decls ++ outputDeclarations b.patternDepth outputs).map (·.name)).Nodup) :
    (b.projectOutputs outputs).Declares (decls ++ outputDeclarations b.patternDepth outputs) := by
  unfold ChainBuilder.projectOutputs
  induction outputs generalizing b decls with
  | nil => rwa [outputDeclarations, List.append_nil]
  | cons name outputs ih =>
    have hsplit : decls ++ outputDeclarations b.patternDepth (name :: outputs) =
        (decls ++ [⟨name, b.patternDepth, none⟩]) ++
          outputDeclarations (b.patternDepth + 1) outputs := by
      rw [outputDeclarations, List.append_assoc]
      rfl
    rw [hsplit] at hnames ⊢
    rw [List.foldl_cons]
    have hfirst :
        ((decls ++ [(⟨name, b.patternDepth, none⟩ : Declaration)]).map (·.name)).Nodup := by
      rw [List.map_append] at hnames
      exact (List.nodup_append.mp hnames).1
    exact ih ((hb.foldl hfirst).congr rfl rfl) hnames

/-- What the builder knows after a pattern. -/
theorem Declares.advance {position : ℕ} (hb : b.Declares decls) (hdepth : b.patternDepth = position)
    (hnames : ((decls ++ outputDeclarations position (e.outputs ctx)).map (·.name)).Nodup) :
    (b.advance ctx e).Declares (decls ++ outputDeclarations position (e.outputs ctx)) := by
  subst hdepth
  unfold ChainBuilder.advance
  unfold ConditionElement.outputs at hnames ⊢
  cases hkind : e.kind with
  | queryCall call =>
    simp only [hkind] at hnames ⊢
    exact hb.projectOutputs hnames
  | _ =>
    simp only [outputDeclarations, List.append_nil]
    split
    · exact hb.congr rfl rfl
    · exact hb

theorem Declares.addPattern (hb : b.Declares decls)
    (hnames : ((decls ++ (e.declarations b.patternDepth ++
      outputDeclarations b.patternDepth (e.outputs ctx))).map (·.name)).Nodup)
    (h : b.addPattern ctx e = .ok b') :
    b'.Declares (decls ++ (e.declarations b.patternDepth ++
      outputDeclarations b.patternDepth (e.outputs ctx))) ∧
      b'.patternDepth = b.patternDepth + e.width ctx := by
  rw [← List.append_assoc] at hnames ⊢
  have hfirst : ((decls ++ e.declarations b.patternDepth).map (·.name)).Nodup := by
    rw [List.map_append] at hnames
    exact (List.nodup_append.mp hnames).1
  have hscope := hb.bindPattern hfirst
  have hdepth := (sameNodes_bindPattern b e).depth
  unfold ChainBuilder.addPattern at h
  split at h
  · cases h
  · dsimp only at h
    split at h
    · cases h
    · next n net _ =>
      cases h
      refine ⟨Declares.advance (hscope.congr rfl rfl) hdepth hnames, ?_⟩
      exact (advance_spec _ ctx e).2.2.trans (congrArg (· + e.width ctx) hdepth)

/-- **The builder knows the declarations of the patterns it has built**, when no name is declared
twice. -/
theorem Declares.foldlM {es : List ConditionElement} {position : ℕ} (hb : b.Declares decls)
    (hdepth : b.patternDepth = position)
    (hnames : ((decls ++ declarationsFrom ctx position es).map (·.name)).Nodup)
    (h : es.foldlM (fun b e ↦ b.addPattern ctx e) b = .ok b') :
    b'.Declares (decls ++ declarationsFrom ctx position es) ∧
      b'.patternDepth = position + patternsWidth ctx es := by
  induction es generalizing b decls position with
  | nil =>
    cases h
    exact ⟨by rwa [declarationsFrom, List.append_nil], hdepth⟩
  | cons e es ih =>
    subst hdepth
    have hsplit : decls ++ declarationsFrom ctx b.patternDepth (e :: es) =
        (decls ++ (e.declarations b.patternDepth ++
          outputDeclarations b.patternDepth (e.outputs ctx))) ++
          declarationsFrom ctx (b.patternDepth + e.width ctx) es := by
      simp only [declarationsFrom, List.append_assoc]
    rw [hsplit] at hnames ⊢
    rw [List.foldlM_cons] at h
    cases hadd : b.addPattern ctx e with
    | error message =>
      rw [hadd] at h
      cases h
    | ok b₁ =>
      rw [hadd] at h
      have hfirst : ((decls ++ (e.declarations b.patternDepth ++
          outputDeclarations b.patternDepth (e.outputs ctx))).map (·.name)).Nodup := by
        rw [List.map_append] at hnames
        exact (List.nodup_append.mp hnames).1
      obtain ⟨hb₁, hdepth₁⟩ := hb.addPattern hfirst hadd
      obtain ⟨hb', hdepth'⟩ := ih hb₁ hdepth₁ hnames h
      refine ⟨hb', ?_⟩
      rw [hdepth', patternsWidth, patternsWidth, List.map_cons, List.sum_cons]
      omega

/-- The parameters of a query are declared like patterns without constraints. -/
theorem Declares.parameters {es : List ConditionElement} (hb : b.Declares decls)
    (hnames : ((decls ++ parameterDeclarations b.patternDepth es).map (·.name)).Nodup) :
    (es.foldl addParameter b).Declares (decls ++ parameterDeclarations b.patternDepth es) ∧
      (es.foldl addParameter b).patternDepth = b.patternDepth + es.length := by
  induction es generalizing b decls with
  | nil => exact ⟨by rwa [parameterDeclarations, List.append_nil], rfl⟩
  | cons e es ih =>
    have hdepth : (b.addParameter e).patternDepth = b.patternDepth + 1 := by
      unfold addParameter
      split <;> rfl
    have hparameter : ∀ own : List Declaration,
        (if e.binding = "" then [] else [⟨e.binding, b.patternDepth, none⟩]) = own →
          ((decls ++ own).map (·.name)).Nodup → (b.addParameter e).Declares (decls ++ own) := by
      rintro _ rfl hown
      unfold addParameter
      by_cases hbinding : e.binding = ""
      · rw [if_pos hbinding, if_pos hbinding, List.append_nil]
        exact hb.congr rfl rfl
      · rw [if_neg hbinding] at hown
        rw [if_neg hbinding, if_neg hbinding]
        exact (hb.foldl hown).congr rfl rfl
    rw [parameterDeclarations, ← List.append_assoc] at hnames ⊢
    rw [← hdepth] at hnames ⊢
    rw [List.foldl_cons]
    have hfirst := hnames
    rw [List.map_append] at hfirst
    obtain ⟨hb', hdepth'⟩ := ih (hparameter _ rfl (List.nodup_append.mp hfirst).1) hnames
    refine ⟨hb', ?_⟩
    rw [hdepth', hdepth, List.length_cons]
    omega

/-- What `build` knows when it returns. -/
theorem declares_of_build {net : QueryNetwork} {es : List ConditionElement} {isQuery : Bool}
    {count : ℕ} (hcount : count ≤ es.length)
    (hnames : ((declarationsOf ctx count es).map (·.name)).Nodup)
    (h : build ctx net es isQuery count = .ok b) :
    b.Declares (declarationsOf ctx count es) ∧
      b.patternDepth = count + patternsWidth ctx (es.drop count) := by
  have hstart : Declares { network := net, isQueryBuild := isQuery } [] :=
    ⟨fun _ ↦ rfl, fun _ ↦ rfl⟩
  have hparameters : ((parameterDeclarations 0 (es.take count)).map (·.name)).Nodup := by
    rw [declarationsOf, List.map_append] at hnames
    exact (List.nodup_append.mp hnames).1
  obtain ⟨hb₀, hdepth⟩ := hstart.parameters hparameters
  rw [List.length_take, min_eq_left hcount] at hdepth
  have hlater : ((es.take count).foldl addParameter
      { network := net, isQueryBuild := isQuery }).patternDepth = count :=
    hdepth.trans (Nat.zero_add count)
  unfold build at h
  exact hb₀.foldlM hlater hnames h

end ChainBuilder

/-! ### What a variable is bound to -/

section Bound

variable (decls : List Declaration) (heap : Heap) (token : TokenWME) (fact : FactPtr)

/-- The fact of a position: one of the token, or the tested one. -/
def factAt (position : ℕ) : Option FactPtr :=
  if position < token.depth then token.getFactAtDepth position else some fact

/-- **The value a variable is bound to**: the field after the dot, of the fact of a declared
variable; the field that an inline variable stands for, or the id of a variable's fact; and a field
of the tested fact, where the name is none of a variable. -/
def boundValue (name : List Char) : Option ConstraintValue :=
  match splitAtDot name with
  | some (binding, path) =>
    (declarationOf decls (String.ofList binding)).bind fun d ↦
      (factAt token fact d.position).bind (getField heap · (String.ofList (trimAscii path)))
  | none =>
    match declarationOf decls (String.ofList name) with
    | some d => (factAt token fact d.position).bind (getField heap · (d.field.getD "this"))
    | none => getField heap fact (String.ofList name.tail)

/-- The comparison of two values, which is false where one is missing. -/
def compareReadings (op : CompareOp) (lhs rhs : Option ConstraintValue) : Bool :=
  match lhs, rhs with
  | some lhs, some rhs => evaluateCompare (factIds heap) op lhs rhs
  | _, _ => false

/-- The comparison of a field with an expression, each variable of which has the value it is bound
to. -/
def boundTest (library : NumberLibrary) (c : ParsedConstraint) (expression : String) : Bool :=
  compareReadings heap c.op (getField heap fact c.leftField)
    (evaluateSimpleRuntimeExpression library (boundValue decls heap token fact) expression.toList)

end Bound

/-- A leaf that compares a field of the tested fact with an arithmetic expression. -/
structure ParsedConstraint.ComparesExpression (c : ParsedConstraint) (expression : String) :
    Prop where
  expression : c.rightArithExpr = some expression
  rightBoundField : c.rightBoundField = none
  temporalConstraint : c.temporalConstraint = none
  leftBinding : c.leftBinding = none
  op : c.op ≠ .none
  left : IsFieldName c.leftField

/-- What the node of a leaf resolves variables with: the token and the names in scope, if it is a
join condition or about a row. -/
def ChainBuilder.nodeScope (b : ChainBuilder) (e : ConditionElement) (c : ParsedConstraint)
    (token : TokenWME) (fact : FactPtr) : Option (TokenWME × Bindings × ScalarFields) :=
  match e.kind with
  | .unnest _ => some (.mk 0 token fact, b.bindingToIdx, [])
  | _ => if c.isJoin then some (token, b.bindingToIdx, b.fieldsOf e) else none

/-- Every variable of an expression is resolved to what it is bound to, on every token of a length
and every fact. -/
def ResolvesAsBound (decls : List Declaration) (depth : ℕ) (expression : String)
    (scope : TokenWME → FactPtr → Option (TokenWME × Bindings × ScalarFields)) : Prop :=
  ∀ heap token fact, token.depth = depth → fact ≠ 0 → ∀ v ∈ mentions expression.toList,
    resolveExpressionVariable heap fact (scope token fact) v = boundValue decls heap token fact v

/-- **The nodes of a pattern test a leaf as it is meant**: on every token of the length the patterns
before it make and on every fact, each variable of the expression has the value it is bound to, and
the pair is accepted when the comparison holds and every other leaf does. -/
structure ChainBuilder.TestsAsBound (b : ChainBuilder) (e : ConditionElement)
    (decls : List Declaration) (pattern : FactPattern) (c : ParsedConstraint)
    (expression : String) : Prop where
  resolves : ResolvesAsBound decls b.patternDepth expression (b.nodeScope e c)
  accepts : ∀ library heap token fact, token.depth = b.patternDepth → fact ≠ 0 →
    (b.elementTest e (reteEnv library) heap token fact pattern = true ↔
      boundTest decls heap token fact library c expression = true ∧
        ∀ c' ∈ pattern.leaves, c' ≠ c →
          b.elementLeafTest e (reteEnv library) heap token fact c' = true)

/-- The variable is bound by a pattern before a position. -/
def DeclaredBefore (decls : List Declaration) (depth : ℕ) (name : List Char) : Prop :=
  ∃ d, declarationOf decls (String.ofList (name.takeWhile (· ≠ '.'))) = some d ∧ d.position < depth

/-- The variable is an inline one of a pattern before a position, and stands without a dot. -/
def InlineBefore (decls : List Declaration) (depth : ℕ) (name : List Char) : Prop :=
  splitAtDot name = none ∧ ∃ d, declarationOf decls (String.ofList name) = some d ∧
    d.position < depth ∧ ∃ field, d.field = some field ∧ field ≠ "this"

/-- The variables of an expression: `$b.field` of a variable that is declared, `$x` of a pattern
before, and `$field` of the tested fact, where the name is not declared, not even among the own
names of a nested pattern. -/
def VariableInScope (decls : List Declaration) (own : List String) (depth : ℕ) (name : List Char) :
    Prop :=
  match splitAtDot name with
  | some (binding, _) => String.ofList binding ∈ decls.map (·.name)
  | none =>
    match declarationOf decls (String.ofList name) with
    | some d => d.position < depth
    | none => ∃ field, name = '$' :: field ∧ field.head?.any isIdentifierChar = true ∧
        String.ofList ('$' :: field.takeWhile isIdentifierChar) ∉ decls.map (·.name) ++ own

/-- **When the variables of a leaf are read as they are bound.** By an alpha node: none is bound by
a pattern before. By a node that does not know the fields of inline variables: none is an inline one
of a pattern before. -/
def ConditionElement.ReadsAsBound (e : ConditionElement) (decls : List Declaration) (depth : ℕ)
    (c : ParsedConstraint) (expression : String) : Prop :=
  match e.kind with
  | .unnest _ => ∀ v ∈ mentions expression.toList, ¬ InlineBefore decls depth v
  | .accumulate _ =>
    if c.isJoin then ∀ v ∈ mentions expression.toList, ¬ InlineBefore decls depth v
    else ∀ v ∈ mentions expression.toList, ¬ DeclaredBefore decls depth v
  | _ => c.isJoin = true ∨ ∀ v ∈ mentions expression.toList, ¬ DeclaredBefore decls depth v

section Test

variable {decls : List Declaration} {b : ChainBuilder} {e : ConditionElement}
  {pattern : FactPattern} {c : ParsedConstraint} {expression : String} {heap : Heap}
  {token : TokenWME} {fact : FactPtr} {library : NumberLibrary}

theorem ParsedConstraint.ComparesExpression.normalize_eq (h : c.ComparesExpression expression)
    (fields : ScalarFields) : normalizeInlineBoundField fields c = c := by
  obtain ⟨-, hright, -, hleft, -, -⟩ := h
  cases c
  subst hright hleft
  rfl

/-- A comparison with an expression, with the token. -/
theorem checkJoin_eq (h : c.ComparesExpression expression) (fields : ScalarFields) :
    checkJoin (reteEnv library) heap b.bindingToIdx fields token fact c =
      compareReadings heap c.op (getField heap fact c.leftField)
        (evaluateSimpleRuntimeExpression library
          (resolveExpressionVariable heap fact (some (token, b.bindingToIdx, fields)))
          expression.toList) := by
  unfold checkJoin joinLeftValue
  simp only [h.temporalConstraint, h.rightBoundField, h.expression, h.leftBinding, reteEnv]
  generalize evaluateSimpleRuntimeExpression library _ _ = rhs
  cases getField heap fact c.leftField <;> cases rhs <;> rfl

/-- A comparison with an expression, on an alpha node. -/
theorem checkConstraint_eq (h : c.ComparesExpression expression) :
    checkConstraint (reteEnv library) heap c fact =
      compareReadings heap c.op (getField heap fact c.leftField)
        (evaluateSimpleRuntimeExpression library (resolveExpressionVariable heap fact none)
          expression.toList) := by
  unfold checkConstraint alphaRightValue
  rw [if_neg fun hnone ↦ h.op hnone.1]
  simp only [h.expression, h.left.alphaField_eq, reteEnv]
  generalize evaluateSimpleRuntimeExpression library _ _ = rhs
  cases getField heap fact c.leftField <;> cases rhs <;> rfl

/-- A comparison with an expression, on a row. -/
theorem checkRuntimeConstraint_eq (h : c.ComparesExpression expression) :
    checkRuntimeConstraint (reteEnv library) heap b.bindingToIdx token fact
        { c with leftBinding := none } =
      compareReadings heap c.op (getField heap fact c.leftField)
        (evaluateSimpleRuntimeExpression library
          (resolveExpressionVariable heap fact (some (token, b.bindingToIdx, [])))
          expression.toList) := by
  unfold checkRuntimeConstraint joinLeftValue
  rw [if_neg h.op]
  simp only [h.temporalConstraint, h.rightBoundField, h.expression, reteEnv]
  generalize evaluateSimpleRuntimeExpression library _ _ = rhs
  cases getField heap fact c.leftField <;> cases rhs <;> rfl

/-- The test of a leaf that compares with an expression, on any kind of node. -/
theorem elementLeafTest_eq (h : c.ComparesExpression expression) :
    b.elementLeafTest e (reteEnv library) heap token fact c =
      compareReadings heap c.op (getField heap fact c.leftField)
        (evaluateSimpleRuntimeExpression library
          (resolveExpressionVariable heap fact (b.nodeScope e c token fact))
          expression.toList) := by
  unfold ChainBuilder.elementLeafTest ChainBuilder.nodeScope
  cases e.kind with
  | unnest source => exact checkRuntimeConstraint_eq h
  | _ =>
    dsimp only
    by_cases hjoin : c.isJoin = true
    · rw [if_pos hjoin, if_pos hjoin, h.normalize_eq]
      exact checkJoin_eq h _
    · rw [if_neg hjoin, if_neg hjoin]
      exact checkConstraint_eq h

/-- The tests follow the variables. -/
theorem ChainBuilder.testsAsBound_iff_resolves (hpattern : e.tested = some pattern)
    (hc : c ∈ pattern.leaves) (h : c.ComparesExpression expression) :
    b.TestsAsBound e decls pattern c expression ↔
      ResolvesAsBound decls b.patternDepth expression (b.nodeScope e c) := by
  refine ⟨fun htests ↦ htests.resolves, fun hresolves ↦ ⟨hresolves, ?_⟩⟩
  intro library heap token fact hdepth hfact
  have htest : b.elementLeafTest e (reteEnv library) heap token fact c =
      boundTest decls heap token fact library c expression := by
    rw [elementLeafTest_eq h, boundTest,
      evaluateSimpleRuntimeExpression_congr (hresolves heap token fact hdepth hfact)]
  rw [ChainBuilder.elementTest_iff hpattern, ← htest]
  refine ⟨fun hall ↦ ⟨hall c hc, fun c' hc' _ ↦ hall c' hc'⟩, fun ⟨hself, hothers⟩ c' hc' ↦ ?_⟩
  by_cases heq : c' = c
  · rw [heq]
    exact hself
  · exact hothers c' hc' heq

end Test

/-! ### The nodes that have the token -/

section Join

variable {decls : List Declaration} {own : List String} {b : ChainBuilder} {heap : Heap}
  {token : TokenWME} {fact : FactPtr} {name letters : List Char} {d : Declaration}
  {fields : ScalarFields} {bindings : Bindings}

theorem sourceField_eq (position : ℕ) (field : String) :
    sourceField heap fact token position field =
      (factAt token fact position).bind (getField heap · field) := by
  unfold sourceField factAt
  by_cases hposition : position < token.depth
  · simp only [if_pos hposition]
    cases token.getFactAtDepth position with
    | some source => exact readField_eq_getField heap source field
    | none => rfl
  · have hend : token.getFactAtDepth position = none := by
      unfold TokenWME.getFactAtDepth
      rw [List.getElem?_eq_none (by rw [TokenWME.facts_length]; omega)]
    simp only [if_neg hposition, hend]
    exact readField_eq_getField heap fact field

/-- The fact of a position is the same when the tested fact is made the last one of the token. -/
theorem factAt_extend (hfact : fact ≠ 0) (address position : ℕ) :
    factAt (.mk address token fact) fact position = factAt token fact position := by
  have hlength := token.facts_length
  show (if position < token.depth + 1 then (TokenWME.mk address token fact).getFactAtDepth position
    else some fact) = _
  unfold factAt TokenWME.getFactAtDepth
  rw [TokenWME.facts]
  by_cases hlt : position < token.depth
  · rw [if_pos hlt, if_pos (Nat.lt_succ_of_lt hlt), List.getElem?_append_left (hlength ▸ hlt)]
  · rw [if_neg hlt]
    split
    · next hle =>
      obtain rfl : position = token.facts.length := by omega
      rw [List.getElem?_concat_length]
      cases fact with
      | zero => exact absurd rfl hfact
      | succ fact => rfl
    · rfl

/-- A row is read the same with the token that ends with it. -/
theorem resolve_extend (hfact : fact ≠ 0) (address : ℕ) :
    resolveExpressionVariable heap fact (some (.mk address token fact, bindings, fields)) name =
      resolveExpressionVariable heap fact (some (token, bindings, fields)) name := by
  unfold resolveExpressionVariable
  simp only [sourceField_eq, factAt_extend hfact, Option.map_some]

theorem IsVariableName.exists_letters (h : IsVariableName (String.ofList name)) :
    ∃ letters, name = '$' :: letters ∧ letters.all isIdentifierChar = true := by
  obtain ⟨letters, heq, hletters⟩ := h
  have hlist := congrArg String.toList heq
  rw [String.toList_ofList, String.toList_ofList] at hlist
  exact ⟨letters, hlist, hletters⟩

/-- Letters of an identifier have no `$`, no dot, no bracket and no space. -/
theorem ne_of_isIdentifierChar {c : Char} (h : isIdentifierChar c = true) :
    c ≠ '$' ∧ c ≠ '.' ∧ c ≠ '[' ∧ isSpace c = false := by
  have hne : ∀ d, isIdentifierChar d = false → c ≠ d := by
    rintro d hd rfl
    exact Bool.noConfusion (h.symm.trans hd)
  refine ⟨hne _ rfl, hne _ rfl, hne _ rfl, Bool.eq_false_iff.mpr fun hspace ↦ ?_⟩
  have hbreak := isBreak_of_isSpace hspace
  simp [isBreak, h] at hbreak

theorem bindingPosition_of_declared (hb : b.Declares decls)
    (h : declarationOf decls (String.ofList name) = some d) :
    bindingPosition b.bindingToIdx name = some d.position := by
  rw [bindingPosition, hb.position, h]
  rfl

/-- A variable without a dot is looked up in the fields of inline variables, and is the id of a fact
where there is no such field. -/
theorem resolve_undotted (hb : b.Declares decls) (hsplit : splitAtDot name = none)
    (h : declarationOf decls (String.ofList name) = some d) :
    resolveExpressionVariable heap fact (some (token, b.bindingToIdx, fields)) name =
      (factAt token fact d.position).bind
        (getField heap · ((scalarBindingField fields name).getD "this")) := by
  have hposition := bindingPosition_of_declared hb h
  unfold resolveExpressionVariable expressionField
  cases hfield : scalarBindingField fields name with
  | some field => simp only [Option.map_some, hsplit, hfield, hposition, sourceField_eq]; rfl
  | none => simp only [Option.map_some, hsplit, hfield, hposition, sourceField_eq]; rfl

/-- The value of a declared variable without a dot. -/
theorem boundValue_undotted (hsplit : splitAtDot name = none)
    (h : declarationOf decls (String.ofList name) = some d) :
    boundValue decls heap token fact name =
      (factAt token fact d.position).bind (getField heap · (d.field.getD "this")) := by
  unfold boundValue
  simp only [hsplit, h]

variable (hvars : ∀ d ∈ decls, IsVariableName d.name)

include hvars

/-- A declared name begins with a `$`. -/
theorem exists_letters_of_declarationOf (h : declarationOf decls (String.ofList name) = some d) :
    ∃ letters, name = '$' :: letters ∧ letters.all isIdentifierChar = true := by
  obtain ⟨hmem, hname⟩ := name_of_declarationOf h
  exact (hname ▸ hvars d hmem).exists_letters

theorem declarationOf_eq_none_of_head (h : name.head? ≠ some '$') :
    declarationOf decls (String.ofList name) = none := by
  refine Option.eq_none_iff_forall_not_mem.mpr fun d hd ↦ ?_
  obtain ⟨letters, rfl, -⟩ := exists_letters_of_declarationOf hvars hd
  exact h rfl

/-- A name that is looked up without its `$` is not found. -/
theorem declarationOf_letters_eq_none (hletters : letters.head?.any isIdentifierChar = true) :
    declarationOf decls (String.ofList letters) = none := by
  refine declarationOf_eq_none_of_head hvars fun hdollar ↦ ?_
  rw [hdollar] at hletters
  exact absurd hletters (by decide)

/-- `$b.field`. -/
theorem resolve_dotted (hb : b.Declares decls) {binding path : List Char}
    (hsplit : splitAtDot name = some (binding, path))
    (h : declarationOf decls (String.ofList binding) = some d) :
    resolveExpressionVariable heap fact (some (token, b.bindingToIdx, fields)) name =
      boundValue decls heap token fact name := by
  obtain ⟨letters, rfl, hletters⟩ := exists_letters_of_declarationOf hvars h
  have htrim : trimAscii ('$' :: letters) = '$' :: letters := by
    refine Tight.trim (.of_forall (List.cons_ne_nil _ _) fun c hc ↦ ?_)
    rcases List.mem_cons.mp hc with rfl | hc
    · rfl
    · exact (ne_of_isIdentifierChar (List.all_eq_true.mp hletters c hc)).2.2.2
  have hposition := bindingPosition_of_declared hb h
  unfold resolveExpressionVariable expressionField boundValue
  simp only [hsplit, htrim, hposition, sourceField_eq, h]
  rfl

/-- The field of an inline variable is that of its declaration. -/
theorem scalarBindingField_of_declared (hb : b.Declares decls)
    (h : declarationOf decls (String.ofList name) = some d) :
    scalarBindingField b.inlineBindingToField name = d.field := by
  obtain ⟨letters, rfl, hletters⟩ := exists_letters_of_declarationOf hvars h
  have hnone : declarationOf decls (String.ofList letters) = none := by
    refine declarationOf_eq_none_of_head hvars fun hdollar ↦ ?_
    have hmem := List.mem_of_head? hdollar
    exact (ne_of_isIdentifierChar (List.all_eq_true.mp hletters _ hmem)).1 rfl
  rw [scalarBindingField_cons, hb.field, h, hb.field, hnone]
  exact Option.or_none

/-- A field of the tested fact. -/
theorem resolve_own (hb : b.Declares decls) (hsplit : splitAtDot ('$' :: letters) = none)
    (hletters : letters.head?.any isIdentifierChar = true)
    (h : declarationOf decls (String.ofList ('$' :: letters)) = none)
    (hfield : scalarBindingField fields ('$' :: letters) = none) :
    resolveExpressionVariable heap fact (some (token, b.bindingToIdx, fields)) ('$' :: letters) =
      boundValue decls heap token fact ('$' :: letters) := by
  have hposition : bindingPosition b.bindingToIdx ('$' :: letters) = none := by
    rw [bindingPosition_cons, hb.position, h, hb.position,
      declarationOf_letters_eq_none hvars hletters]
    rfl
  unfold resolveExpressionVariable expressionField boundValue
  simp only [Option.map_some, hsplit, hfield, hposition, h]
  exact readField_eq_getField heap fact (String.ofList letters)

/-- **With the token and the fields of inline variables every variable has the value it is bound
to.** -/
theorem resolve_join (hb : b.Declares decls)
    (hscope : VariableInScope decls own b.patternDepth name) :
    resolveExpressionVariable heap fact (some (token, b.bindingToIdx, b.inlineBindingToField))
        name = boundValue decls heap token fact name := by
  unfold VariableInScope at hscope
  split at hscope
  · next binding path hsplit =>
    cases h : declarationOf decls (String.ofList binding) with
    | none => exact absurd hscope (declarationOf_eq_none_iff.mp h)
    | some d => exact resolve_dotted hvars hb hsplit h
  · next hsplit =>
    split at hscope
    · next d h =>
      rw [resolve_undotted hb hsplit h, boundValue_undotted hsplit h,
        scalarBindingField_of_declared hvars hb h]
    · next h =>
      obtain ⟨field, rfl, hfield, -⟩ := hscope
      refine resolve_own hvars hb hsplit hfield h ?_
      rw [scalarBindingField_cons, hb.field, h, hb.field,
        declarationOf_letters_eq_none hvars hfield]
      rfl

/-- **With the token alone it has, unless it is an inline variable.** -/
theorem resolve_plain (hb : b.Declares decls)
    (hscope : VariableInScope decls own b.patternDepth name)
    (hinline : ¬ InlineBefore decls b.patternDepth name) :
    resolveExpressionVariable heap fact (some (token, b.bindingToIdx, [])) name =
      boundValue decls heap token fact name := by
  have hnone : scalarBindingField [] name = none := by simp [scalarBindingField]
  unfold VariableInScope at hscope
  split at hscope
  · next binding path hsplit =>
    cases h : declarationOf decls (String.ofList binding) with
    | none => exact absurd hscope (declarationOf_eq_none_iff.mp h)
    | some d => exact resolve_dotted hvars hb hsplit h
  · next hsplit =>
    split at hscope
    · next d h =>
      have hfield : d.field.getD "this" = "this" := by
        by_contra hne
        obtain ⟨field, hfield⟩ : ∃ field, d.field = some field := by
          cases hd : d.field with
          | none => exact absurd (by rw [hd]; rfl) hne
          | some field => exact ⟨field, rfl⟩
        rw [hfield] at hne
        exact hinline ⟨hsplit, d, h, hscope, field, hfield, hne⟩
      rw [resolve_undotted hb hsplit h, boundValue_undotted hsplit h, hnone, hfield]
      rfl
    · next h =>
      obtain ⟨field, rfl, hfield, -⟩ := hscope
      exact resolve_own hvars hb hsplit hfield h hnone

end Join

/-! ### The nodes that have not -/

section Alpha

variable {decls : List Declaration} {own : List String} {b : ChainBuilder} {c : ParsedConstraint}
  {expression : String} {heap : Heap} {fact : FactPtr} {name letters : List Char}
  {d : Declaration} {depth : ℕ}

/-- Without the token every variable is a field of the tested fact. -/
theorem resolve_alpha (hsplit : splitAtDot ('$' :: letters) = none) :
    resolveExpressionVariable heap fact none ('$' :: letters) =
      getField heap fact (String.ofList letters) := by
  unfold resolveExpressionVariable expressionField
  simp only [Option.map_none, hsplit]
  exact readField_eq_getField heap fact (String.ofList letters)

/-- A fact without fields has no value but an absent one or a nil, and its id. -/
theorem getField_of_no_fields (hfields : (heap fact).fields = []) {field : String}
    (hthis : field ≠ "this") :
    getField heap fact field = none ∨ getField heap fact field = some .nil := by
  have hnil : ∀ nullSafe, nilIfNullSafe nullSafe = none ∨ nilIfNullSafe nullSafe = some .nil := by
    intro nullSafe
    cases nullSafe with
    | true => exact .inr rfl
    | false => exact .inl rfl
  unfold getField
  rw [if_neg hthis]
  by_cases hpath : isPath field = true
  · rw [if_pos hpath]
    rcases parseFieldPath field with _ | ⟨seg, segments⟩
    · exact .inl rfl
    unfold getFieldFrom
    dsimp only
    rw [hfields]
    -- nothing has been read yet, so a name is not found and an index has nothing to apply to
    by_cases hname : seg.name = ""
    · rw [if_pos hname]
      rcases seg.indices with _ | ⟨index, indices⟩
      · cases segments with
        | nil => exact .inl rfl
        | cons next segments => exact hnil seg.nullSafe
      · exact hnil seg.nullSafe
    · rw [if_neg hname]
      exact hnil seg.nullSafe
  · rw [if_neg hpath, hfields]
    exact .inl rfl

theorem getField_this (heap : Heap) (fact : FactPtr) :
    getField heap fact "this" = some (.int64 (heap fact).id) := rfl

theorem isPath_letters (hletters : letters.all isIdentifierChar = true) :
    isPath (String.ofList letters) = false := by
  rw [isPath, String.toList_ofList, List.any_eq_false]
  intro c hc
  obtain ⟨-, hdot, hbracket, -⟩ := ne_of_isIdentifierChar (List.all_eq_true.mp hletters c hc)
  simp [hdot, hbracket]

/-- A token of copies of the fact `1`. -/
def onesToken (depth : ℕ) : TokenWME := .ofFacts (List.replicate depth 1)

theorem depth_onesToken (depth : ℕ) : (onesToken depth).depth = depth := by
  rw [onesToken, ← TokenWME.facts_length, TokenWME.facts_ofFacts, List.length_replicate]

theorem factAt_onesToken {position : ℕ} (hlt : position < depth) :
    factAt (onesToken depth) fact position = some 1 := by
  have hget : (List.replicate depth 1)[position]? = some 1 := by
    rw [List.getElem?_replicate, if_pos hlt]
  rw [factAt, depth_onesToken, if_pos hlt, TokenWME.getFactAtDepth, onesToken,
    TokenWME.facts_ofFacts, hget]
  rfl

/-- Working memory in which the tested fact, `2`, has one field and its id is the value of it; every
other fact has none, and the id 0. -/
def heapWithField (field : String) : Heap := fun p ↦
  if p = 2 then { id := 1, fields := [(field, .int64 1)] } else {}

theorem getField_heapWithField (hletters : letters.all isIdentifierChar = true) :
    getField (heapWithField (String.ofList letters)) 2 (String.ofList letters) =
      some (.int64 1) := by
  by_cases hthis : String.ofList letters = "this"
  · rw [hthis]
    rfl
  · unfold getField
    rw [if_neg hthis, isPath_letters hletters]
    simp [heapWithField]

/-- The other facts have no field with that value. -/
theorem getField_heapWithField_ne (field field' : String) :
    getField (heapWithField field) 1 field' ≠ some (.int64 1) := by
  by_cases hthis : field' = "this"
  · subst hthis
    rw [getField_this]
    intro h
    have hone : (0 : ℤ) = 1 := ConstraintValue.int64.inj (Option.some.inj h)
    omega
  · rcases @getField_of_no_fields (heapWithField field) 1 rfl field' hthis with h | h
    · rw [h]
      exact fun h ↦ nomatch h
    · rw [h]
      exact fun h ↦ nomatch h

/-- A dotted variable makes its leaf a join condition. -/
theorem isJoin_of_dotted (hcompares : c.ComparesExpression expression)
    (hvars : ∀ d ∈ decls, IsVariableName d.name) {binding path : List Char}
    (hv : name ∈ mentions expression.toList) (hsplit : splitAtDot name = some (binding, path))
    (hdeclared : String.ofList binding ∈ decls.map (·.name)) : c.isJoin = true := by
  obtain ⟨d, hd, hname⟩ := List.mem_map.mp hdeclared
  have hvariable : IsVariableName (String.ofList binding) := hname ▸ hvars d hd
  obtain ⟨letters, rfl, hletters⟩ := hvariable.exists_letters
  obtain ⟨rfl, -⟩ := splitAtDot_eq_some hsplit
  have hscan := expressionReferencesDottedBinding_of_mem hletters hv
  simp [ParsedConstraint.isJoin, hcompares.expression, hscan]

/-- A variable of a pattern before reads a field of the wrong fact, without the token. -/
theorem exists_resolve_alpha_ne (hvars : ∀ d ∈ decls, IsVariableName d.name)
    (hsplit : splitAtDot name = none)
    (hd : declarationOf decls (String.ofList name) = some d) (hlt : d.position < depth) :
    ∃ heap, resolveExpressionVariable heap 2 none name ≠
      boundValue decls heap (onesToken depth) 2 name := by
  obtain ⟨letters, rfl, hletters⟩ := exists_letters_of_declarationOf hvars hd
  refine ⟨heapWithField (String.ofList letters), ?_⟩
  rw [resolve_alpha hsplit, getField_heapWithField hletters, boundValue_undotted hsplit hd,
    factAt_onesToken hlt]
  exact (getField_heapWithField_ne _ _).symm

/-- An inline variable of a pattern before is the id of its fact, without the fields of inline
variables. -/
theorem exists_resolve_plain_ne (hb : b.Declares decls) (hinline : InlineBefore decls depth name) :
    resolveExpressionVariable (fun _ ↦ {}) 2 (some (onesToken depth, b.bindingToIdx, [])) name ≠
      boundValue decls (fun _ ↦ {}) (onesToken depth) 2 name := by
  obtain ⟨hsplit, d, hd, hlt, field, hfield, hthis⟩ := hinline
  have hnone : scalarBindingField [] name = none := by simp [scalarBindingField]
  rw [resolve_undotted hb hsplit hd, boundValue_undotted hsplit hd, hnone, hfield,
    factAt_onesToken hlt]
  show getField (fun _ ↦ {} : Heap) 1 "this" ≠ getField (fun _ ↦ {} : Heap) 1 field
  rw [getField_this]
  rcases @getField_of_no_fields (fun _ ↦ {}) 1 rfl field hthis with h | h
  · rw [h]
    exact fun h ↦ nomatch h
  · rw [h]
    exact fun h ↦ nomatch h

section Exact

variable (hvars : ∀ d ∈ decls, IsVariableName d.name)
  (hscope : ∀ v ∈ mentions expression.toList, VariableInScope decls own depth v)

include hvars hscope

/-- An alpha node resolves a leaf's variables as they are bound exactly when none is bound by a
pattern before. -/
theorem resolvesAsBound_alpha_iff (hcompares : c.ComparesExpression expression)
    (hjoin : ¬ c.isJoin = true) :
    ResolvesAsBound decls depth expression (fun _ _ ↦ none) ↔
      ∀ v ∈ mentions expression.toList, ¬ DeclaredBefore decls depth v := by
  constructor
  · rintro hresolves v hv ⟨d, hd, hlt⟩
    cases hsplit : splitAtDot v with
    | some parts =>
      obtain ⟨binding, path⟩ := parts
      rw [(splitAtDot_eq_some hsplit).2] at hd
      obtain ⟨hmem, hname⟩ := name_of_declarationOf hd
      exact hjoin (isJoin_of_dotted hcompares hvars hv hsplit
        (hname ▸ List.mem_map_of_mem hmem))
    | none =>
      rw [takeWhile_of_splitAtDot_none hsplit] at hd
      obtain ⟨heap, hne⟩ := exists_resolve_alpha_ne hvars hsplit hd hlt
      exact hne (hresolves heap _ 2 (depth_onesToken depth) (by decide) v hv)
  · intro hnone heap token fact _ _ v hv
    have hv_scope := hscope v hv
    unfold VariableInScope at hv_scope
    split at hv_scope
    · next binding path hsplit =>
      exact absurd (isJoin_of_dotted hcompares hvars hv hsplit hv_scope) hjoin
    · next hsplit =>
      split at hv_scope
      · next d hd =>
        refine absurd ⟨d, ?_, hv_scope⟩ (hnone v hv)
        rwa [takeWhile_of_splitAtDot_none hsplit]
      · next hd =>
        obtain ⟨field, rfl, -, -⟩ := hv_scope
        rw [resolve_alpha hsplit, boundValue, hsplit]
        dsimp only
        rw [hd]
        rfl

end Exact

variable (hb : b.Declares decls) (hvars : ∀ d ∈ decls, IsVariableName d.name)
  (hscope : ∀ v ∈ mentions expression.toList, VariableInScope decls own b.patternDepth v)

include hb hvars hscope

theorem resolvesAsBound_join :
    ResolvesAsBound decls b.patternDepth expression
      (fun token _ ↦ some (token, b.bindingToIdx, b.inlineBindingToField)) :=
  fun _ _ _ _ _ v hv ↦ resolve_join hvars hb (hscope v hv)

/-- A node that does not know the fields of inline variables resolves variables as they are bound
exactly when none is an inline one of a pattern before. -/
theorem resolvesAsBound_plain_iff :
    ResolvesAsBound decls b.patternDepth expression
        (fun token _ ↦ some (token, b.bindingToIdx, [])) ↔
      ∀ v ∈ mentions expression.toList, ¬ InlineBefore decls b.patternDepth v := by
  refine ⟨fun hresolves v hv hinline ↦ ?_, fun hnone heap token fact _ _ v hv ↦ ?_⟩
  · exact exists_resolve_plain_ne hb hinline
      (hresolves _ _ 2 (depth_onesToken b.patternDepth) (by decide) v hv)
  · exact resolve_plain hvars hb (hscope v hv) (hnone v hv)

/-- **A leaf that compares with an expression is tested as it is meant exactly when its variables
are read as they are bound.** -/
theorem ChainBuilder.Declares.testsAsBound_iff {e : ConditionElement} {pattern : FactPattern}
    (hpattern : e.tested = some pattern) (hc : c ∈ pattern.leaves)
    (hcompares : c.ComparesExpression expression) :
    b.TestsAsBound e decls pattern c expression ↔
      e.ReadsAsBound decls b.patternDepth c expression := by
  rw [testsAsBound_iff_resolves hpattern hc hcompares]
  have hplain := resolvesAsBound_plain_iff hb hvars hscope
  have halpha := resolvesAsBound_alpha_iff hvars hscope hcompares
  have hjoined := resolvesAsBound_join hb hvars hscope
  unfold ChainBuilder.nodeScope ConditionElement.ReadsAsBound ChainBuilder.fieldsOf
  cases e.kind with
  | unnest source =>
    rw [← hplain]
    refine forall₅_congr fun heap token fact hdepth hfact ↦ forall₂_congr fun v hv ↦ ?_
    rw [resolve_extend hfact]
  | accumulate source =>
    dsimp only
    by_cases hjoin : c.isJoin = true
    · simp only [if_pos hjoin]
      exact hplain
    · simp only [if_neg hjoin]
      exact halpha hjoin
  | _ =>
    dsimp only
    by_cases hjoin : c.isJoin = true
    · simp only [if_pos hjoin]
      exact iff_of_true hjoined (.inl hjoin)
    · simp only [if_neg hjoin]
      exact (halpha hjoin).trans (or_iff_right hjoin).symm

end Alpha

/-! ### Compiled groups -/

/-- The declarations of a pattern after the others. -/
theorem declarationsFrom_concat (ctx : BuildContext) (es : List ConditionElement)
    (e : ConditionElement) (position : ℕ) :
    declarationsFrom ctx position (es ++ [e]) =
      declarationsFrom ctx position es ++ (e.declarations (position + patternsWidth ctx es) ++
        outputDeclarations (position + patternsWidth ctx es) (e.outputs ctx)) := by
  induction es generalizing position with
  | nil => simp [declarationsFrom, patternsWidth]
  | cons e' es ih =>
    have hwidth : position + patternsWidth ctx (e' :: es) =
        position + e'.width ctx + patternsWidth ctx es := by
      rw [patternsWidth, patternsWidth, List.map_cons, List.sum_cons, Nat.add_assoc]
    rw [List.cons_append, declarationsFrom, declarationsFrom, ih, hwidth]
    simp only [List.append_assoc]

/-- The pattern that is tested has its own facts: it is no call of a query. -/
theorem ConditionElement.outputs_of_tested {ctx : BuildContext} {e : ConditionElement}
    {pattern : FactPattern} (h : e.tested = some pattern) : e.outputs ctx = [] := by
  unfold tested patternForAlpha at h
  unfold outputs
  cases hkind : e.kind with
  | queryCall call =>
    rw [hkind] at h
    cases h
  | _ => rfl

/-- What the builder knows when it builds the node of a pattern: the declarations up to it, its own
included. -/
theorem ChainBuilder.declares_bindPattern {ctx : BuildContext} {net : QueryNetwork}
    {earlier : List ConditionElement} {isQuery : Bool} {count : ℕ} (hcount : count ≤ earlier.length)
    {e : ConditionElement} {b : ChainBuilder} (h : build ctx net earlier isQuery count = .ok b)
    (houtputs : e.outputs ctx = [])
    (hnames : ((declarationsOf ctx count (earlier ++ [e])).map (·.name)).Nodup) :
    (b.bindPattern e).Declares (declarationsOf ctx count (earlier ++ [e])) := by
  have hconcat : declarationsOf ctx count (earlier ++ [e]) =
      declarationsOf ctx count earlier ++
        e.declarations (count + patternsWidth ctx (earlier.drop count)) := by
    unfold declarationsOf
    rw [List.take_append_of_le_length hcount, List.drop_append_of_le_length hcount,
      declarationsFrom_concat, houtputs, outputDeclarations, List.append_nil, List.append_assoc]
  rw [hconcat] at hnames ⊢
  have hearlier : ((declarationsOf ctx count earlier).map (·.name)).Nodup := by
    rw [List.map_append] at hnames
    exact (List.nodup_append.mp hnames).1
  obtain ⟨hb, hdepth⟩ := declares_of_build hcount hearlier h
  rw [← hdepth] at hnames ⊢
  exact hb.bindPattern hnames

/-- **Arithmetic leaves of compiled groups.** A leaf of a pattern, of the nested pattern of a NOT or
an EXISTS, of the source of an accumulate or of a pattern of rows compares a field with an
arithmetic expression over variables of the patterns before, fields of such variables and fields of
the tested fact; the names declared up to the pattern are all different. The pattern has a node that makes the
tests of its leaves, and they test the leaf with each variable evaluated to what it is bound to
exactly when the leaf `ReadsAsBound`. Of an accumulate, no node tests the constraints on the
result. -/
theorem testsAsBound_compiled_iff {ctx : BuildContext} {net : QueryNetwork} (hnet : net.Inv)
    {earlier : List ConditionElement} {isQuery : Bool} {count : ℕ} (hcount : count ≤ earlier.length)
    {e : ConditionElement} {b b' : ChainBuilder}
    (hbuild : ChainBuilder.build ctx net earlier isQuery count = .ok b)
    (hadd : b.addPattern ctx e = .ok b') {pattern : FactPattern}
    (hpattern : e.tested = some pattern) {c : ParsedConstraint} (hc : c ∈ pattern.leaves)
    {expression : String} (hcompares : c.ComparesExpression expression)
    (hnames : ((declarationsOf ctx count (earlier ++ [e])).map (·.name)).Nodup)
    (hvars : ∀ d ∈ declarationsOf ctx count (earlier ++ [e]), IsVariableName d.name)
    (hscope : ∀ v ∈ mentions expression.toList,
      VariableInScope (declarationsOf ctx count (earlier ++ [e]))
        (pattern.leaves.filterMap (·.fieldBinding)) b.patternDepth v) :
    (∃ n, b'.lastNode = some n ∧ b'.network.MakesTests (b.bindPattern e) e pattern n) ∧
      ((b.bindPattern e).TestsAsBound e (declarationsOf ctx count (earlier ++ [e])) pattern c
          expression ↔
        e.ReadsAsBound (declarationsOf ctx count (earlier ++ [e])) b.patternDepth c expression) ∧
      ∀ source, e.kind = .accumulate source → ∀ root,
        (b.bindPattern e).createNodeForPattern ctx { e with constraintRoot := root } =
          (b.bindPattern e).createNodeForPattern ctx e := by
  obtain ⟨hinv, -, -, -⟩ := ChainBuilder.build_spec hnet hcount hbuild
  refine ⟨ChainBuilder.addPattern_makesTests hinv hpattern hadd, ?_,
    fun source hsource root ↦ (b.bindPattern e).createNodeForPattern_accumulate ctx hsource root⟩
  have hdepth := (ChainBuilder.sameNodes_bindPattern b e).depth
  have hknown := ChainBuilder.declares_bindPattern hcount hbuild
    (ConditionElement.outputs_of_tested hpattern) hnames
  rw [← hdepth] at hscope ⊢
  exact ChainBuilder.Declares.testsAsBound_iff hknown hvars hscope hpattern hc hcompares

/-! ### A limit of the customer and one of the order -/

/-- `$c : Customer($limit : limit)`. -/
def customer : ConditionElement where
  binding := "$c"
  factType := "Customer"
  constraintRoot := some (.leaf { fieldBinding := some "$limit", leftField := "limit" })

/-- `amount > (expression)`. -/
def amountAbove (expression : String) : ParsedConstraint :=
  { leftField := "amount", op := .gt, rightArithExpr := some expression }

/-- `Order(amount > (expression))`. -/
def orderAbove (expression : String) : FactPattern where
  factType := "Order"
  constraintRoot := some (.leaf (amountAbove expression))

/-- The pattern itself, in a rule. -/
def FactPattern.element (pattern : FactPattern) : ConditionElement where
  factType := pattern.factType
  constraintRoot := pattern.constraintRoot

/-- `Number() from accumulate(pattern, count())`. -/
def FactPattern.counted (pattern : FactPattern) : ConditionElement where
  kind := .accumulate { function := "count", sourcePattern := pattern }
  factType := "Number"

theorem comparesExpression_amountAbove (expression : String) :
    (amountAbove expression).ComparesExpression expression :=
  ⟨rfl, rfl, rfl, rfl, fun h ↦ (nomatch h),
    fun h ↦ absurd h (show ¬ isPath "amount" = true by decide)⟩

/-- `$c : Customer($limit : limit) Order(amount > ($c.rate * $limit + $fee))` is tested as it is
meant. -/
theorem testsAsBound_dotted_limit :
    ∃ b, ChainBuilder.build {} {} [customer] false 0 = .ok b ∧
      (b.bindPattern (orderAbove "$c.rate * $limit + $fee").element).TestsAsBound
        (orderAbove "$c.rate * $limit + $fee").element
        (declarationsOf {} 0 [customer, (orderAbove "$c.rate * $limit + $fee").element])
        (orderAbove "$c.rate * $limit + $fee") (amountAbove "$c.rate * $limit + $fee")
        "$c.rate * $limit + $fee" := by
  have hbuild : ChainBuilder.build {} {} [customer] false 0 = .ok _ := rfl
  refine ⟨_, hbuild, (testsAsBound_compiled_iff QueryNetwork.inv_empty (Nat.zero_le _) hbuild rfl
    rfl (List.mem_singleton_self _) (comparesExpression_amountAbove _) (by decide) ?_ ?_).2.1.mpr
    (.inl (by decide))⟩
  · intro d hd
    rcases List.mem_cons.mp hd with rfl | hd
    · exact ⟨['c'], rfl, rfl⟩
    · obtain rfl := List.mem_singleton.mp hd
      exact ⟨"limit".toList, rfl, rfl⟩
  · intro v hv
    have hmentions : mentions "$c.rate * $limit + $fee".toList =
        ["$c.rate".toList, "$limit".toList, "$fee".toList] := by decide +kernel
    rw [hmentions] at hv
    rcases List.mem_cons.mp hv with rfl | hv
    · show String.ofList ['$', 'c'] ∈ _
      decide
    rcases List.mem_cons.mp hv with rfl | hv
    · show 0 < 1
      decide
    · obtain rfl := List.mem_singleton.mp hv
      exact ⟨"fee".toList, rfl, rfl, by decide⟩

/-- A customer with the id 1, a rate of 1 and a limit of 100, and an order of 30 with a limit of
10. -/
def customerAndOrder : Heap := fun p ↦
  if p = 1 then
    { id := 1, type := "Customer", fields := [("limit", .int64 100), ("rate", .int64 1)] }
  else { id := 2, type := "Order", fields := [("amount", .int64 30), ("limit", .int64 10)] }

/-- **`$c : Customer($limit : limit) Order(amount > ($limit * 2))` is not**: of a customer with a
limit of 100, the order of 30 passes, since the limit that is read is that of the order. -/
theorem inline_limit_misread :
    ∃ b, ChainBuilder.build {} {} [customer] false 0 = .ok b ∧
      (b.bindPattern (orderAbove "$limit * 2").element).elementTest
        (orderAbove "$limit * 2").element (reteEnv bareLibrary) customerAndOrder (.mk 0 .root 1) 2
        (orderAbove "$limit * 2") = true ∧
      boundTest (declarationsOf {} 0 [customer, (orderAbove "$limit * 2").element])
        customerAndOrder (.mk 0 .root 1) 2 bareLibrary (amountAbove "$limit * 2") "$limit * 2" =
          false ∧
      ¬ (b.bindPattern (orderAbove "$limit * 2").element).TestsAsBound
        (orderAbove "$limit * 2").element
        (declarationsOf {} 0 [customer, (orderAbove "$limit * 2").element])
        (orderAbove "$limit * 2") (amountAbove "$limit * 2") "$limit * 2" := by
  have hmeant : boundTest (declarationsOf {} 0 [customer, (orderAbove "$limit * 2").element])
      customerAndOrder (.mk 0 .root 1) 2 bareLibrary (amountAbove "$limit * 2") "$limit * 2" =
      false := by decide +kernel
  refine ⟨_, rfl, by decide +kernel, hmeant, fun htests ↦ ?_⟩
  have hbound := (htests.accepts bareLibrary customerAndOrder (.mk 0 .root 1) 2 rfl
    (by decide)).mp (by decide +kernel)
  exact Bool.noConfusion (hmeant.symm.trans hbound.1)

/-- An accumulate node reads an inline variable as the id of its fact, also in a join condition:
the order of 30 is counted, although 1 times the limit of 100 is meant. -/
example :
    ∃ b, ChainBuilder.build {} {} [customer] false 0 = .ok b ∧
      (b.bindPattern (orderAbove "$c.rate * $limit").counted).elementTest
        (orderAbove "$c.rate * $limit").counted (reteEnv bareLibrary) customerAndOrder
        (.mk 0 .root 1) 2 (orderAbove "$c.rate * $limit") = true ∧
      boundTest (declarationsOf {} 0 [customer, (orderAbove "$c.rate * $limit").counted])
        customerAndOrder (.mk 0 .root 1) 2 bareLibrary (amountAbove "$c.rate * $limit")
        "$c.rate * $limit" = false := by
  exact ⟨_, rfl, by decide +kernel, by decide +kernel⟩

end RulesForge
