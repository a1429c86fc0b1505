import RulesForge.Engine.ExpressionScope
import RulesForge.Rete.RightInput

/-!
# The names a leaf reads

A leaf that is a join condition looks names up: those of the fields it compares (`boundNames`) and
those of its expression (`expressionNames`). Two scopes that differ in other names test it alike
(`leafTest_congr`), and one that lacks a name that it compares with rejects every fact
(`leafTest_of_unbound`).

The builder takes up the names of a pattern with `bindPattern`. What that changes is the names the
pattern binds to its own fact, its `ownNames`.
-/

namespace RulesForge

/-- The name a variable of an expression is looked up by, before a dot. -/
def lookupName (name : List Char) : List Char :=
  (splitAtDot name).elim name fun parts ↦ trimAscii parts.1

/-- A name is looked up as it stands, without its first letter, and with a `$`. -/
def spellings (name : List Char) : List String :=
  [String.ofList name, String.ofList name.tail, String.ofList ('$' :: name)]

/-- What the variables of an expression are looked up by. -/
def expressionNames (expression : String) : List String :=
  (mentions expression.toList).flatMap fun name ↦ spellings (lookupName name)

namespace ParsedConstraint

variable (c : ParsedConstraint) (names : List String)

/-- The variables whose fields a join condition compares. -/
def boundNames : List String :=
  match c.temporalConstraint with
  | some tc => [tc.rhsBindingAndField.1]
  | none => c.leftBinding.toList ++ (c.rightBoundField.map (·.1)).toList

/-- A join condition compares with a field of one of the names. -/
def ReadsBinding : Prop := c.isJoin = true ∧ ∃ name ∈ c.boundNames, name ∈ names

/-- The expression of a join condition asks for one of the names. -/
def ReadsInExpression : Prop :=
  c.isJoin = true ∧ ∃ expression ∈ c.rightArithExpr, ∃ name ∈ expressionNames expression,
    name ∈ names

end ParsedConstraint

/-- Two scopes differ in some names only. -/
structure AgreeOff (names : List String) (bindings bindings' : Bindings)
    (fields fields' : ScalarFields) : Prop where
  binding : ∀ name ∉ names, bindings.lookup name = bindings'.lookup name
  field : ∀ name ∉ names, fields.lookup name = fields'.lookup name

section Congruence

variable {names : List String} {bindings bindings' : Bindings} {fields fields' : ScalarFields}
  {library : NumberLibrary} {env : RuntimeEnv} {heap : Heap} {token : TokenWME} {fact : FactPtr}
  {c : ParsedConstraint}

theorem AgreeOff.bindingPosition (h : AgreeOff names bindings bindings' fields fields')
    {name : List Char} (hname : ∀ spelling ∈ spellings name, spelling ∉ names) :
    bindingPosition bindings name = bindingPosition bindings' name := by
  have hself := h.binding _ (hname (String.ofList name) (by simp [spellings]))
  have htail := h.binding _ (hname (String.ofList name.tail) (by simp [spellings]))
  have hdollar := h.binding _ (hname (String.ofList ('$' :: name)) (by simp [spellings]))
  rw [RulesForge.bindingPosition, RulesForge.bindingPosition, hself, htail, hdollar]

theorem AgreeOff.scalarBindingField (h : AgreeOff names bindings bindings' fields fields')
    {name : List Char} (hname : ∀ spelling ∈ spellings name, spelling ∉ names) :
    scalarBindingField fields name = scalarBindingField fields' name := by
  have hself := h.field _ (hname (String.ofList name) (by simp [spellings]))
  have htail := h.field _ (hname (String.ofList name.tail) (by simp [spellings]))
  rw [RulesForge.scalarBindingField, RulesForge.scalarBindingField, hself, htail]

/-- A variable is resolved alike where the scopes agree on its spellings. -/
theorem AgreeOff.resolve (h : AgreeOff names bindings bindings' fields fields') {name : List Char}
    (hname : ∀ spelling ∈ spellings (lookupName name), spelling ∉ names) :
    resolveExpressionVariable heap fact (some (token, bindings, fields)) name =
      resolveExpressionVariable heap fact (some (token, bindings', fields')) name := by
  have hfield : expressionField (some fields) name = expressionField (some fields') name ∧
      (expressionField (some fields) name).1 = lookupName name := by
    cases hsplit : splitAtDot name with
    | some parts =>
      have hlookup : lookupName name = trimAscii parts.1 := by rw [lookupName, hsplit]; rfl
      simp only [expressionField, hsplit, hlookup, and_self]
    | none =>
      have hlookup : lookupName name = name := by rw [lookupName, hsplit]; rfl
      have hscalar := h.scalarBindingField hname
      rw [hlookup] at hscalar ⊢
      simp only [expressionField, hsplit, hscalar, true_and]
      cases RulesForge.scalarBindingField fields' name <;> rfl
  have hposition := h.bindingPosition hname
  unfold resolveExpressionVariable
  simp only [Option.map_some, ← hfield.1, hfield.2, hposition]

theorem AgreeOff.boundFact (h : AgreeOff names bindings bindings' fields fields') {name : String}
    (hname : name ∉ names) :
    boundFact bindings token fact name = boundFact bindings' token fact name := by
  rw [RulesForge.boundFact, RulesForge.boundFact, h.binding name hname]

/-- A leaf that compares fields of the names that two scopes agree on. -/
structure ParsedConstraint.ComparesAlike (c : ParsedConstraint) (names : List String) : Prop where
  left : ∀ name ∈ c.leftBinding, name ∉ names
  right : ∀ bound ∈ c.rightBoundField, bound.1 ∉ names

/-- The comparison of a join condition, in two scopes in which its expression has one value. -/
theorem AgreeOff.checkJoin (h : AgreeOff names bindings bindings' fields fields')
    (htemporal : c.temporalConstraint = none) (hc : c.ComparesAlike names)
    (hvalue : ∀ expression ∈ c.rightArithExpr,
      env.evaluateRuntimeExpression heap expression fact (some (token, bindings, fields)) =
        env.evaluateRuntimeExpression heap expression fact (some (token, bindings', fields'))) :
    RulesForge.checkJoin env heap bindings fields token fact (normalizeInlineBoundField fields c) =
      RulesForge.checkJoin env heap bindings' fields' token fact
        (normalizeInlineBoundField fields' c) := by
  have hleft : joinLeftValue heap bindings token fact (normalizeInlineBoundField fields c) =
      joinLeftValue heap bindings' token fact (normalizeInlineBoundField fields' c) := by
    unfold joinLeftValue normalizeInlineBoundField
    cases hl : c.leftBinding with
    | none => rfl
    | some name =>
      have hname := hc.left name hl
      simp only [h.boundFact hname, normalizedField, h.field name hname]
  unfold RulesForge.checkJoin
  simp only [hleft]
  unfold normalizeInlineBoundField
  simp only [htemporal]
  cases hr : c.rightBoundField with
  | some bound =>
    have hname := hc.right bound hr
    simp only [Option.map_some, h.boundFact hname, normalizedField, h.field _ hname]
  | none =>
    cases he : c.rightArithExpr with
    | some expression => simp only [Option.map_none, hvalue expression he]
    | none =>
      cases c.rightLiteral with
      | some literal => rfl
      | none =>
        cases hl : c.leftBinding with
        | none => rfl
        | some name => simp only [Option.map_none, h.boundFact (hc.left name hl)]

/-- **A leaf that reads none of the names is tested alike.** -/
theorem leafTest_congr (h : AgreeOff names bindings bindings' fields fields')
    (hbound : ¬ c.ReadsBinding names) (hexpression : ¬ c.ReadsInExpression names) :
    leafTest (reteEnv library) heap bindings fields token fact c =
      leafTest (reteEnv library) heap bindings' fields' token fact c := by
  unfold leafTest
  by_cases hjoin : c.isJoin = true
  · rw [if_pos hjoin, if_pos hjoin]
    have hnames : ∀ name ∈ c.boundNames, name ∉ names :=
      fun name hmem hname ↦ hbound ⟨hjoin, name, hmem, hname⟩
    unfold ParsedConstraint.boundNames at hnames
    cases htemporal : c.temporalConstraint with
    | some tc =>
      rw [htemporal] at hnames
      have hlookup := h.binding _ (hnames _ (List.mem_singleton_self _))
      simp only [checkJoin, normalizeInlineBoundField, htemporal, checkTemporal, hlookup]
    | none =>
      rw [htemporal] at hnames
      refine h.checkJoin htemporal ⟨fun name hl ↦ ?_, fun bound hr ↦ ?_⟩ fun expression he ↦ ?_
      · exact hnames name (List.mem_append_left _ (Option.mem_toList.mpr hl))
      · refine hnames bound.1 (List.mem_append_right _ (Option.mem_toList.mpr ?_))
        exact Option.mem_map_of_mem _ hr
      · refine evaluateSimpleRuntimeExpression_congr fun name hmention ↦ h.resolve ?_
        exact fun spelling hspelling hname ↦ hexpression ⟨hjoin, expression, he, spelling,
          List.mem_flatMap.mpr ⟨name, hmention, hspelling⟩, hname⟩
  · rw [if_neg hjoin, if_neg hjoin]

/-- **A leaf that compares with a field of an unbound name rejects every fact.** -/
theorem leafTest_of_unbound (hunbound : ∀ name ∈ names, bindings.lookup name = none)
    (h : c.ReadsBinding names) : leafTest env heap bindings fields token fact c = false := by
  obtain ⟨hjoin, name, hmem, hname⟩ := h
  have hlookup := hunbound name hname
  have hfact : boundFact bindings token fact name = none := by rw [boundFact, hlookup]
  unfold leafTest
  rw [if_pos hjoin]
  unfold ParsedConstraint.boundNames at hmem
  cases htemporal : c.temporalConstraint with
  | some tc =>
    rw [htemporal] at hmem
    obtain rfl := List.mem_singleton.mp hmem
    simp only [checkJoin, normalizeInlineBoundField, htemporal, checkTemporal, hlookup]
  | none =>
    rw [htemporal] at hmem
    rcases List.mem_append.mp hmem with hl | hr
    · -- the left side has no value, and a join condition has something to compare it with
      have hleft : c.leftBinding = some name := Option.mem_toList.mp hl
      simp only [ParsedConstraint.isJoin, htemporal, Option.isSome_none, Bool.or_false,
        Bool.or_eq_true] at hjoin
      simp only [checkJoin, normalizeInlineBoundField, htemporal, joinLeftValue, hleft, hfact]
      cases hr : c.rightBoundField with
      | some bound => rfl
      | none =>
        cases he : c.rightArithExpr with
        | some expression => rfl
        | none => simp [hr, he] at hjoin
    · obtain ⟨bound, hright, rfl⟩ := Option.map_eq_some_iff.mp (Option.mem_toList.mp hr)
      simp only [checkJoin, normalizeInlineBoundField, htemporal, hright, Option.map_some, hfact,
        Option.bind_none]
      cases joinLeftValue heap bindings token fact _ <;> rfl

end Congruence

/-! ### The names of a pattern -/

/-- The inline variables of a pattern. -/
def ConditionElement.inlineNames (e : ConditionElement) : List String :=
  e.leaves.filterMap (·.fieldBinding)

/-- The names a pattern binds to its own fact or to fields of it. -/
def ConditionElement.ownNames (e : ConditionElement) : List String :=
  (if e.binding = "" then [] else [e.binding]) ++ e.inlineNames

namespace ChainBuilder

/-- Inline variables are bound to the position of the pattern. -/
theorem lookup_collectInlineBindings (b : ChainBuilder) (leaves : List ParsedConstraint)
    (name : String) :
    (b.collectInlineBindings leaves).bindingToIdx.lookup name =
        (if name ∈ leaves.filterMap (·.fieldBinding) then some b.patternDepth
        else b.bindingToIdx.lookup name) ∧
      (name ∉ leaves.filterMap (·.fieldBinding) →
        (b.collectInlineBindings leaves).inlineBindingToField.lookup name =
          b.inlineBindingToField.lookup name) := by
  unfold collectInlineBindings
  induction leaves generalizing b with
  | nil => exact ⟨rfl, fun _ ↦ rfl⟩
  | cons c leaves ih =>
    rw [List.foldl_cons]
    cases hbinding : c.fieldBinding with
    | none =>
      rw [List.filterMap_cons_none hbinding]
      exact ih b
    | some own =>
      rw [List.filterMap_cons_some hbinding]
      obtain ⟨hposition, hfield⟩ := ih
        { b.bind own b.patternDepth with
          inlineBindingToField := SortedMap.insert own c.leftField b.inlineBindingToField }
      refine ⟨hposition.trans ?_, fun hname ↦ ?_⟩
      · show (if _ then some b.patternDepth
          else (SortedMap.insert own b.patternDepth b.bindingToIdx).lookup name) = _
        rw [SortedMap.lookup_insert]
        by_cases hlater : name ∈ leaves.filterMap (·.fieldBinding)
        · rw [if_pos hlater, if_pos (List.mem_cons_of_mem _ hlater)]
        · rw [if_neg hlater]
          by_cases hown : name = own
          · rw [if_pos hown, if_pos (hown ▸ List.mem_cons_self)]
          · rw [if_neg hown, if_neg (by simp [hown, hlater])]
      · rw [List.mem_cons, not_or] at hname
        exact (hfield hname.2).trans (SortedMap.lookup_insert_ne hname.1 ..)

/-- The names of a pattern are bound to its position, and other names as they were. -/
theorem lookup_bindPattern (b : ChainBuilder) (e : ConditionElement) (name : String) :
    (b.bindPattern e).bindingToIdx.lookup name =
      if name ∈ e.ownNames then some b.patternDepth else b.bindingToIdx.lookup name := by
  unfold bindPattern ConditionElement.ownNames ConditionElement.inlineNames
  by_cases hbinding : e.binding = ""
  · rw [if_pos hbinding, if_pos hbinding]
    exact (b.lookup_collectInlineBindings e.leaves name).1
  · rw [if_neg hbinding, if_neg hbinding]
    refine ((b.bind e.binding b.patternDepth).lookup_collectInlineBindings e.leaves name).1.trans ?_
    show (if _ then some b.patternDepth
      else (SortedMap.insert e.binding b.patternDepth b.bindingToIdx).lookup name) = _
    rw [SortedMap.lookup_insert]
    by_cases hinline : name ∈ e.leaves.filterMap (·.fieldBinding)
    · rw [if_pos hinline, if_pos (List.mem_append_right _ hinline)]
    · rw [if_neg hinline]
      by_cases hown : name = e.binding
      · rw [if_pos hown, if_pos (List.mem_append_left _ (List.mem_singleton.mpr hown))]
      · rw [if_neg hown, if_neg (by simpa [hown] using hinline)]

/-- Taking up a pattern changes the scope in its own names only. -/
theorem agreeOff_bindPattern (b : ChainBuilder) (e : ConditionElement) :
    AgreeOff e.ownNames (b.bindPattern e).bindingToIdx b.bindingToIdx
      (b.bindPattern e).inlineBindingToField b.inlineBindingToField where
  binding name hname := by rw [lookup_bindPattern, if_neg hname]
  field name hname := by
    have hinline : name ∉ e.leaves.filterMap (·.fieldBinding) :=
      fun h ↦ hname (List.mem_append_right _ h)
    unfold bindPattern
    split
    · exact (b.lookup_collectInlineBindings e.leaves name).2 hinline
    · exact ((b.bind e.binding b.patternDepth).lookup_collectInlineBindings e.leaves name).2 hinline

end ChainBuilder

end RulesForge
