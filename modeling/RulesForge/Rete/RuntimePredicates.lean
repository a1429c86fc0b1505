import RulesForge.Library.SortedMap
import RulesForge.Rete.NetworkShape

/-!
# Runtime predicates

When an alpha node is built, a support table (`build_runtime_predicate_for_constraint` in
`src/rete/beta_builder.cpp`) gives its constraint a **descriptor** of a native predicate, and
`AlphaNode::check_constraint` (`src/rete/rete_node.cpp`) consults the descriptor if it **names** an
external function. No entry of the table ever does, so the test of every node is the plain
`checkConstraint` (`AlphaNode.checkConstraint_eq`).

For a list-membership constraint this means that its list is never looked at: neither `in` nor
`not in` lets any fact pass (`membership_agrees_iff`).
-/

namespace RulesForge

/-! ### Declared types -/

inductive FieldType where
  | string | int | long | double | float | number | boolean | list | object | unknown | set | map
  | uuid | uint64 | bytes | enum | dateTime | date | time | duration | decimal | bigInt | money
  deriving DecidableEq, Repr

inductive TypeParameter where
  | mk (baseType : FieldType) (customType : String) (nested : Option TypeParameter)

structure FieldInfo where
  type : FieldType := .unknown
  typeParams : List TypeParameter := []

structure ParsedField where
  name : String
  type : FieldType
  typeParams : List TypeParameter

structure ParsedDeclaration where
  typeName : String
  fields : List ParsedField

abbrev FieldTypeIndex := List (String × List (String × FieldInfo))

def buildFieldTypeIndex (declarations : List ParsedDeclaration) : FieldTypeIndex :=
  declarations.foldl (fun index declaration ↦
    let fields := (index.lookup declaration.typeName).getD []
    SortedMap.insert declaration.typeName
      (declaration.fields.foldl (fun fields field ↦
        SortedMap.insert field.name ⟨field.type, field.typeParams⟩ fields) fields) index) []

def lookupFieldInfo (fieldTypes : FieldTypeIndex) (factType fieldName : String) :
    Option FieldInfo :=
  (fieldTypes.lookup factType).bind (·.lookup fieldName)

/-- The part of a field name before its first separator or index. -/
def rootFieldName (fieldName : String) : String :=
  String.ofList (fieldName.toList.takeWhile fun c ↦ c ≠ '.' ∧ c ≠ '[' ∧ c ≠ '!')

section BoundFields

variable (fieldTypes : FieldTypeIndex) (bindingFactTypes : List (String × String))
  (boundField : String × String)

def lookupBoundFieldInfo : Option FieldInfo :=
  if boundField.2 = "this" then none
  else (bindingFactTypes.lookup boundField.1).bind (lookupFieldInfo fieldTypes · boundField.2)

def lookupBoundFieldType : Option FieldType :=
  if boundField.2 = "this" then some .long
  else (lookupBoundFieldInfo fieldTypes bindingFactTypes boundField).map (·.type)

/-- `lookup_bound_first_path_field_info`. No path is cached in a constraint at build time. -/
def lookupBoundFirstPathFieldInfo : Option FieldInfo :=
  (bindingFactTypes.lookup boundField.1).bind fun factType ↦
    let root := rootFieldName boundField.2
    if root ≠ "" ∧ root ≠ boundField.2 then lookupFieldInfo fieldTypes factType root else none

end BoundFields

/-! ### Kinds of fields -/

def isDeclaredStringField (type : Option FieldType) : Bool := type = some .string

def isDeclaredNumericField : Option FieldType → Bool
  | some .int | some .long | some .double | some .float | some .number | some .uint64
  | some .duration => true
  | _ => false

def isDeclaredRuntimeScalarField : Option FieldType → Bool
  | some .list | some .set | some .map | some .object | some .unknown | none => false
  | _ => true

def isDeclaredMapField (type : Option FieldType) : Bool := type = some .map

def isDeclaredCollectionField (type : Option FieldType) : Bool :=
  type = some .list || type = some .set

def isScalarTypeParameter : TypeParameter → Bool
  | .mk baseType _ nested => nested.isNone && isDeclaredRuntimeScalarField (some baseType)

def isDeclaredScalarCollectionField : Option FieldInfo → Bool
  | some ⟨type, [parameter]⟩ =>
    isDeclaredCollectionField (some type) && isScalarTypeParameter parameter
  | _ => false

def isDeclaredFactListField : Option FieldInfo → Bool
  | some ⟨.object, [.mk .object "FactList" _]⟩ => true
  | _ => false

def isFactListProjection (firstFieldInfo : Option FieldInfo) (fieldName : String) : Bool :=
  isDeclaredFactListField firstFieldInfo && fieldName.toList.contains '.'

def isDeclaredRuntimeMapKeyField : Option FieldInfo → Bool
  | none => false
  | some info =>
    isDeclaredRuntimeScalarField (some info.type) || info.type = .list || info.type = .set ||
      info.type = .map || isDeclaredFactListField (some info)

/-! ### The support table -/

def isRuntimeCompareValueSupported : ConstraintValue → Bool
  | .factList _ | .typedList _ | .valueSet _ | .valueMap _ => false
  | _ => true

def isRuntimeValueListSupported (values : List ConstraintValue) : Bool :=
  !values.isEmpty && values.all isRuntimeCompareValueSupported

inductive RuntimePredicateKind where
  | compare | temporal | stringContains | stringMatches | stringAffix | stringLengthIs
  | mapContainsKey | collectionContains | numericLiteral | numericExpression | valueList
  | evalExpression | external
  deriving DecidableEq, Repr

/-- The descriptor of a native predicate. -/
structure RuntimePredicateRef where
  kind : RuntimePredicateKind
  predicateId : ℕ := 0
  compareOp : CompareOp := .none
  temporalOp : TemporalOp := .none
  windowMs : ℤ := 0
  externalName : String := ""

section Table

variable (validRegex : String → Bool) (fieldTypes : FieldTypeIndex)
  (bindingFactTypes : List (String × String)) (c : ParsedConstraint)

/-- The right-hand side of a string operator. `validRegex` tells the regular expressions that
`std::regex` accepts. -/
def supportedStringRhs : Bool :=
  match c.rightLiteral, c.rightBoundField with
  | some literal, _ =>
    if c.op = .lengthIs then
      match literal with
      | .int64 _ | .double _ => true
      | _ => false
    else
      match literal with
      | .string text => if c.op = .matches ∨ c.op = .notMatches then validRegex text else true
      | _ => false
  | none, none => false
  | none, some bound =>
    let rightType := lookupBoundFieldType fieldTypes bindingFactTypes bound
    if c.op = .lengthIs then isDeclaredNumericField rightType else isDeclaredStringField rightType

def supportedCollectionConstraint (leftFieldInfo : Option FieldInfo) : Bool :=
  if c.op = .contains ∨ c.op = .notContains then
    let literalOr (supported : ConstraintValue → Bool) (field : Option FieldType → Bool) : Bool :=
      match c.rightLiteral, c.rightBoundField with
      | some literal, _ => supported literal
      | none, some bound => field (lookupBoundFieldType fieldTypes bindingFactTypes bound)
      | none, none => false
    if isDeclaredFactListField leftFieldInfo then
      if isFactListProjection leftFieldInfo c.leftField then
        literalOr isRuntimeCompareValueSupported isDeclaredRuntimeScalarField
      else
        literalOr (fun | .string _ => true | _ => false) isDeclaredStringField
    else if !isDeclaredScalarCollectionField leftFieldInfo then false
    else if c.rightLiteral.any isRuntimeCompareValueSupported then true
    else
      match c.rightBoundField with
      | some bound =>
        isDeclaredRuntimeScalarField (lookupBoundFieldType fieldTypes bindingFactTypes bound)
      | none => false
  else if c.op = .memberOf ∨ c.op = .notMemberOf then
    match c.rightBoundField with
    | none => false
    | some bound =>
      let rightFieldInfo := lookupBoundFieldInfo fieldTypes bindingFactTypes bound
      let leftType := leftFieldInfo.map (·.type)
      if isDeclaredStringField leftType && isDeclaredFactListField rightFieldInfo then true
      else if !isDeclaredRuntimeScalarField leftType then false
      else if rightFieldInfo.isSome then isDeclaredScalarCollectionField rightFieldInfo
      else
        let first := lookupBoundFirstPathFieldInfo fieldTypes bindingFactTypes bound
        isFactListProjection first bound.2 || isDeclaredScalarCollectionField first
  else false

def supportedMapKeyConstraint (leftFieldInfo : Option FieldInfo) : Bool :=
  isDeclaredMapField (leftFieldInfo.map (·.type)) &&
    -- every alternative of a value may be the key of a map
    (c.rightLiteral.isSome ||
      c.rightBoundField.any fun bound ↦
        isDeclaredRuntimeMapKeyField (lookupBoundFieldInfo fieldTypes bindingFactTypes bound))

/-- `build_runtime_predicate_for_constraint`. The branches for comparisons, whatever they support,
give no descriptor. -/
def buildRuntimePredicateForConstraint (leftFieldInfo : Option FieldInfo)
    (leftFieldType : Option FieldType) : Option RuntimePredicateRef :=
  let supportedString :=
    isDeclaredStringField leftFieldType &&
      supportedStringRhs validRegex fieldTypes bindingFactTypes c
  match c.temporalConstraint with
  | some tc => some { kind := .temporal, temporalOp := tc.op, windowMs := tc.windowMs }
  | none =>
    match c.op with
    | .in | .notIn =>
      match c.rightValueList with
      | none => none
      | some values =>
        if !isRuntimeValueListSupported values then none
        else
          some {
            kind := .collectionContains
            compareOp := if c.op = .in then .memberOf else .notMemberOf }
    | .matches | .notMatches =>
      if supportedString then some { kind := .stringMatches, compareOp := c.op } else none
    | .startsWith | .endsWith =>
      if supportedString then some { kind := .stringAffix, compareOp := c.op } else none
    | .lengthIs => if supportedString then some { kind := .stringLengthIs } else none
    | .containsKey | .notContainsKey =>
      if supportedMapKeyConstraint fieldTypes bindingFactTypes c leftFieldInfo then
        some { kind := .mapContainsKey, compareOp := c.op }
      else none
    | .contains | .notContains =>
      if isDeclaredStringField leftFieldType then
        if supportedStringRhs validRegex fieldTypes bindingFactTypes c then
          some { kind := .stringContains, compareOp := c.op }
        else none
      else if supportedCollectionConstraint fieldTypes bindingFactTypes c leftFieldInfo then
        some { kind := .collectionContains, compareOp := c.op }
      else none
    | .memberOf | .notMemberOf =>
      if supportedCollectionConstraint fieldTypes bindingFactTypes c leftFieldInfo then
        some { kind := .collectionContains, compareOp := c.op }
      else none
    | _ => none

/-- The declared field that stands on the left: the field itself, or the one its path begins
with. -/
def leftFieldInfo (factType : String) : Option FieldInfo :=
  let inType (type : String) : Option FieldInfo :=
    match lookupFieldInfo fieldTypes type c.leftField with
    | some info => some info
    | none =>
      if c.leftField.toList.contains '.' then
        lookupFieldInfo fieldTypes type (String.ofList (c.leftField.toList.takeWhile (· ≠ '.')))
      else none
  match c.leftBinding with
  | some binding => (bindingFactTypes.lookup binding).bind inType
  | none => if factType = "" then none else inType factType

/-- One round of `build_runtime_predicates`. -/
def buildRuntimePredicate (factType : String) : Option RuntimePredicateRef :=
  let info := leftFieldInfo fieldTypes bindingFactTypes c factType
  buildRuntimePredicateForConstraint validRegex fieldTypes bindingFactTypes c info
    (info.map (·.type))

end Table

/-! ### Alpha nodes with descriptors -/

/-- An alpha node as `build_alpha_chain` makes it. -/
structure AlphaNode where
  constraint : ParsedConstraint
  runtimePredicateRef : Option RuntimePredicateRef

/-- What the knowledge base answers for a native predicate on some arguments; nothing where the
predicate is not registered or fails. -/
abbrev NativePredicates := RuntimePredicateRef → List ConstraintValue → Option Bool

/-- The text of the exception when a native predicate fails. -/
def runtimePredicateFailed (predicate : RuntimePredicateRef) (feature : String) : String :=
  feature ++ " native" ++
    (if predicate.externalName ≠ "" then " '" ++ predicate.externalName ++ "'" else "") ++
    " predicate failed at runtime"

/-- `AlphaNode::check_constraint`. -/
def AlphaNode.checkConstraint (node : AlphaNode) (env : RuntimeEnv) (native : NativePredicates)
    (heap : Heap) (fact : FactPtr) : Except String Bool :=
  let c := node.constraint
  if c.op = .none ∧ c.rightLiteral.isNone then .ok true
  else
    match alphaField heap fact c.leftField with
    | none => .ok false
    | some lhs =>
      let compared : Bool :=
        match alphaRightValue env heap c fact with
        | some rhs => evaluateCompare (factIds heap) c.op lhs rhs
        | none => false
      match node.runtimePredicateRef with
      | none => .ok compared
      | some predicate =>
        if predicate.externalName = "" then .ok compared
        else
          let ask (args : List ConstraintValue) (feature : String) : Except String Bool :=
            match native predicate args with
            | some result => .ok result
            | none => .error (runtimePredicateFailed predicate feature)
          match predicate.kind, c.rightValueList with
          | .numericLiteral, _ | .valueList, _ => ask [lhs] "alpha unary predicate"
          | .collectionContains, some values =>
            ask [lhs, .typedList values] "alpha collection value-list predicate"
          | _, _ => ask [lhs, c.rightLiteral.getD .nil] "alpha binary predicate"

/-- No descriptor of the table names an external function. -/
theorem externalName_of_buildRuntimePredicateForConstraint {validRegex : String → Bool}
    {fieldTypes : FieldTypeIndex} {bindingFactTypes : List (String × String)}
    {c : ParsedConstraint} {info : Option FieldInfo} {type : Option FieldType}
    {predicate : RuntimePredicateRef}
    (h : buildRuntimePredicateForConstraint validRegex fieldTypes bindingFactTypes c info type =
      some predicate) : predicate.externalName = "" := by
  have hite : ∀ {b : Bool} {r : RuntimePredicateRef}, r.externalName = "" →
      (if b = true then some r else none) = some predicate → predicate.externalName = "" := by
    intro b r hr heq
    split at heq
    · rw [← Option.some.inj heq, hr]
    · cases heq
  unfold buildRuntimePredicateForConstraint at h
  split at h
  · rw [← Option.some.inj h]
  · split at h
    · -- `in` and `not in`
      split at h
      · cases h
      · split at h
        · cases h
        · rw [← Option.some.inj h]
    · split at h
      · cases h
      · split at h
        · cases h
        · rw [← Option.some.inj h]
    all_goals first
      | exact hite rfl h
      | (split at h <;> exact hite rfl h)
      | cases h

/-- **A descriptor changes nothing**: the node of a constraint tests it as `checkConstraint` does. -/
theorem AlphaNode.checkConstraint_eq (validRegex : String → Bool) (fieldTypes : FieldTypeIndex)
    (bindingFactTypes : List (String × String)) (factType : String) (c : ParsedConstraint)
    (env : RuntimeEnv) (native : NativePredicates) (heap : Heap) (fact : FactPtr) :
    AlphaNode.checkConstraint
        ⟨c, buildRuntimePredicate validRegex fieldTypes bindingFactTypes c factType⟩ env native heap
        fact = .ok (RulesForge.checkConstraint env heap c fact) := by
  unfold AlphaNode.checkConstraint RulesForge.checkConstraint
  dsimp only
  split
  · rfl
  · cases alphaField heap fact c.leftField with
    | none => rfl
    | some lhs =>
      cases href : buildRuntimePredicate validRegex fieldTypes bindingFactTypes c factType with
      | none => cases alphaRightValue env heap c fact <;> rfl
      | some predicate =>
        have hname := externalName_of_buildRuntimePredicateForConstraint href
        dsimp only
        rw [if_pos hname]
        cases alphaRightValue env heap c fact <;> rfl

/-! ### List membership -/

/-- A value as the operand of a list-membership constraint. -/
inductive Operand where
  | int64 (i : ℤ)
  | string (s : String)

def Operand.toValue : Operand → ConstraintValue
  | int64 i => .int64 i
  | string s => .string s

/-- `f in (v₁, …, vₙ)` or `f not in (v₁, …, vₙ)`. -/
structure Membership where
  field : String
  negated : Bool
  values : List Operand
  values_ne_nil : values ≠ []

namespace Membership

variable (m : Membership)

/-- The leaf that the grammar builds. -/
def constraint : ParsedConstraint where
  leftField := m.field
  op := if m.negated then .notIn else .in
  rightValueList := some (m.values.map Operand.toValue)

/-- Some listed value is equal to that of the field. -/
def Lists (factId : FactPtr → ℤ) (v : Operand) : Prop :=
  ∃ w ∈ m.values, evaluateCompare factId .eq v.toValue w.toValue = true

/-- What the constraint says of a value. -/
def Says (factId : FactPtr → ℤ) (v : Operand) : Prop :=
  if m.negated then ¬ m.Lists factId v else m.Lists factId v

/-- The list goes into the descriptor's kind, and no further. -/
theorem buildRuntimePredicate_constraint (validRegex : String → Bool) (fieldTypes : FieldTypeIndex)
    (bindingFactTypes : List (String × String)) (factType : String) :
    buildRuntimePredicate validRegex fieldTypes bindingFactTypes m.constraint factType =
      some { kind := .collectionContains
             compareOp := if m.negated then .notMemberOf else .memberOf } := by
  have hsupported : isRuntimeValueListSupported (m.values.map Operand.toValue) = true := by
    have hall : (m.values.map Operand.toValue).all isRuntimeCompareValueSupported = true := by
      rw [List.all_map, List.all_eq_true]
      intro w _
      cases w <;> rfl
    have hempty : (m.values.map Operand.toValue).isEmpty = false := by
      simpa using m.values_ne_nil
    rw [isRuntimeValueListSupported, hall, hempty]
    rfl
  unfold buildRuntimePredicate buildRuntimePredicateForConstraint
  cases hnegated : m.negated <;> simp [constraint, hnegated, hsupported]

/-- The comparison that the node makes instead is with nil. -/
theorem checkConstraint_constraint (env : RuntimeEnv) (heap : Heap) (fact : FactPtr) {v : Operand}
    (hv : alphaField heap fact m.field = some v.toValue) :
    checkConstraint env heap m.constraint fact = false := by
  have hcompare : ∀ op : CompareOp, op = .in ∨ op = .notIn →
      evaluateCompare (factIds heap) op v.toValue .nil = false := by
    rintro op (rfl | rfl) <;> cases v <;> rfl
  have hop : m.constraint.op ≠ .none := by
    cases hnegated : m.negated <;> simp [constraint, hnegated]
  unfold checkConstraint
  rw [if_neg fun h ↦ hop h.1]
  have hleft : alphaField heap fact m.constraint.leftField = some v.toValue := hv
  have hright : alphaRightValue env heap m.constraint fact = some .nil := rfl
  rw [hleft, hright]
  refine hcompare _ ?_
  cases hnegated : m.negated
  · exact .inl (by simp [constraint, hnegated])
  · exact .inr (by simp [constraint, hnegated])

end Membership

/-- **When a list-membership constraint is tested as it says.** For every list of integers and
texts, every declaration of types and every fact with an integer or a text in the field: the node
that is built lets the fact pass as the constraint says if and only if the constraint says that it
must not pass. -/
theorem membership_agrees_iff (m : Membership) (validRegex : String → Bool)
    (declarations : List ParsedDeclaration) (bindingFactTypes : List (String × String))
    (factType : String) (env : RuntimeEnv) (native : NativePredicates) (heap : Heap)
    (fact : FactPtr) (v : Operand) (hv : alphaField heap fact m.field = some v.toValue) :
    (AlphaNode.checkConstraint
        ⟨m.constraint, buildRuntimePredicate validRegex (buildFieldTypeIndex declarations)
          bindingFactTypes m.constraint factType⟩ env native heap fact = .ok true ↔
      m.Says (factIds heap) v) ↔
      (if m.negated then m.Lists (factIds heap) v else ¬ m.Lists (factIds heap) v) := by
  rw [AlphaNode.checkConstraint_eq, m.checkConstraint_constraint env heap fact hv]
  unfold Membership.Says
  cases m.negated <;> simp

/-- `x in (2)`, for a fact with `x = 1`. -/
def onlyTwo : Membership where
  field := "x"
  negated := false
  values := [.int64 2]
  values_ne_nil := List.cons_ne_nil _ _

theorem not_lists_onlyTwo : ¬ onlyTwo.Lists (factIds pointHeap) (.int64 1) := by
  rintro ⟨w, hw, heq⟩
  obtain rfl := List.mem_singleton.mp hw
  revert heq
  decide

/-- A fact that is not listed does not pass. -/
theorem membership_agrees_unlisted :
    AlphaNode.checkConstraint ⟨onlyTwo.constraint,
        buildRuntimePredicate (fun _ ↦ true) (buildFieldTypeIndex []) [] onlyTwo.constraint "A"⟩
        noExpressions (fun _ _ ↦ none) pointHeap 1 = .ok true ↔
      onlyTwo.Says (factIds pointHeap) (.int64 1) :=
  (membership_agrees_iff onlyTwo (fun _ ↦ true) [] [] "A" noExpressions (fun _ _ ↦ none) pointHeap 1
    (.int64 1) rfl).mpr not_lists_onlyTwo

/-- `x in (1)`, for the same fact. -/
def onlyOne : Membership where
  field := "x"
  negated := false
  values := [.int64 1]
  values_ne_nil := List.cons_ne_nil _ _

/-- The fact whose value is the one listed does not pass either. -/
theorem membership_listed_rejected :
    onlyOne.Says (factIds pointHeap) (.int64 1) ∧
      AlphaNode.checkConstraint ⟨onlyOne.constraint,
        buildRuntimePredicate (fun _ ↦ true) (buildFieldTypeIndex []) [] onlyOne.constraint "A"⟩
        noExpressions (fun _ _ ↦ none) pointHeap 1 = .ok false :=
  ⟨⟨.int64 1, List.mem_singleton.mpr rfl, by decide⟩, rfl⟩

end RulesForge
