import RulesForge.Core.Constraint

/-!
# The analysis of constraints

`analyze_constraint_node_recursive` (`src/semantic_analyzer.cpp`) walks the constraints of a
pattern once they are parsed. It declares inline variables, checks the names of fields against the
schema of the fact type, and looks up the variables on the right of comparisons: a variable that
stands for a field of another pattern is replaced by that field, and one that is not declared is
an error.
-/

namespace RulesForge

/-- What a name stands for: a fact, or a field of one. -/
structure SymbolInfo where
  depth : ℕ
  sourceFieldOfBinding : Option (String × String) := none

abbrev SymbolTable := List (String × SymbolInfo)

/-- What the constraints of a pattern are analysed with: the rule, the pattern with its depth, the
schemas of fact types and the symbols of the patterns before. -/
structure ConstraintContext where
  ruleName : String
  factType : String
  factBinding : String
  depth : ℕ
  typeSchemas : List (String × List String) := []
  existingSymbols : SymbolTable := []

/-- What an analysis adds: symbols and errors. -/
structure Analysis where
  newSymbols : SymbolTable := []
  errors : List String := []

namespace ConstraintContext

variable (ctx : ConstraintContext) (newSymbols : SymbolTable) (c : ParsedConstraint)

/-- A symbol of the patterns before, or of this one. -/
def findSymbol (name : String) : Option SymbolInfo :=
  (ctx.existingSymbols.lookup name).or (newSymbols.lookup name)

/-- The inline variable of a constraint is declared, unless its name is taken. -/
def declareInline : Analysis :=
  match c.fieldBinding with
  | none => { newSymbols := newSymbols }
  | some name =>
    if (ctx.findSymbol newSymbols name).isSome then
      { newSymbols := newSymbols
        errors := ["In rule '" ++ ctx.ruleName ++ "', duplicate inline binding '" ++ name ++
          "' is declared."] }
    else
      { newSymbols :=
          (name, ⟨ctx.depth, some (ctx.factBinding, c.leftField)⟩) :: newSymbols }

/-- The field on the left is one of the fact type, up to its first dot. A type without a schema has
any field. -/
def checkField : List String :=
  if ctx.factType = "" ∨ c.leftField = "" ∨ c.leftField = "this" then []
  else
    match ctx.typeSchemas.lookup ctx.factType with
    | none => []
    | some fields =>
      if c.leftField ∈ fields ∨
          '.' ∈ c.leftField.toList ∧
            String.ofList (c.leftField.toList.takeWhile (· ≠ '.')) ∈ fields then []
      else
        ["In rule '" ++ ctx.ruleName ++ "', constraint field '" ++ c.leftField ++
          "' not found on fact type '" ++ ctx.factType ++ "'."]

def undeclaredBinding (name : String) : String :=
  "In rule '" ++ ctx.ruleName ++ "', constraint uses undeclared binding '" ++ name ++ "'."

/-- The right side: the field that a variable stands for takes its place, and a text that begins
with a `$` is a variable too. -/
def resolveRightSide : ParsedConstraint × List String :=
  match c.rightBoundField, c.rightLiteral with
  | some (name, _), _ =>
    match ctx.findSymbol newSymbols name with
    | none => (c, [ctx.undeclaredBinding name])
    | some info =>
      match info.sourceFieldOfBinding with
      | some source => ({ c with rightBoundField := some source }, [])
      | none => (c, [])
  | none, some (.string text) =>
    if text.toList.head? = some '$' then
      match ctx.findSymbol newSymbols text with
      | none => (c, [ctx.undeclaredBinding text])
      | some info =>
        ({ c with
            rightBoundField := some (info.sourceFieldOfBinding.getD (text, "this"))
            rightLiteral := none }, [])
    else (c, [])
  | none, _ => (c, [])

/-- The analysis of a leaf. -/
def analyzeConstraint : ParsedConstraint × Analysis :=
  let declared := ctx.declareInline newSymbols c
  let resolved := ctx.resolveRightSide declared.newSymbols c
  (resolved.1,
    { newSymbols := declared.newSymbols
      errors := declared.errors ++ ctx.checkField c ++ resolved.2 })

end ConstraintContext

end RulesForge
