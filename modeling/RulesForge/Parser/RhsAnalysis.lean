import RulesForge.Engine.RhsExecutor
import RulesForge.Parser.SemanticAnalyzer

/-!
# The analysis of right-hand sides

`SemanticAnalyzer` (`src/semantic_analyzer.cpp`) resolves the names of types: those of
patterns, and those that the actions of a rule insert (`analyze_rhs`), by the declarations of the
file, the package of the rule and its imports (`resolve_type`). The parser of actions is left open.

The actions are walked at their top level only. An insertion inside of an `if`, a `switch` or a loop
keeps the name that was written, which is the name of a declared type only if it needs no package
(`rhs_declared_iff`).
-/

namespace RulesForge

/-! ### The schema -/

/-- A type or an enumeration that a file declares, with the package of the file. -/
structure DeclaredType where
  name : String
  sourcePackage : String := ""
  deriving DecidableEq

/-- The name in the schema. -/
def DeclaredType.typeName (decl : DeclaredType) : String :=
  if decl.sourcePackage ≠ "" ∧ '.' ∉ decl.name.toList then decl.sourcePackage ++ "." ++ decl.name
  else decl.name

/-- The declarations and the globals of the parser's state that the analysis reads. -/
structure AnalyzedState where
  parsedDeclarations : List DeclaredType := []
  parsedEnums : List DeclaredType := []
  parsedGlobals : List String := []

namespace AnalyzedState

variable (state : AnalyzedState)

/-- The names that are declared, in full. -/
def declaredTypes : List String :=
  (state.parsedDeclarations ++ state.parsedEnums).map DeclaredType.typeName

/-- `build_schema`: the keys of `type_schemas_`. -/
def typeSchemas : List String := "Number" :: state.declaredTypes

end AnalyzedState

/-- The types that need no declaration. -/
def builtinTypes : List String :=
  ["String", "int", "long", "double", "boolean", "List", "Number"]

/-- What `analyze_rhs` reads of a rule. -/
structure RuleSource where
  name : String
  rhsCode : String
  sourcePackage : String := ""
  sourceImports : List String := []

section Resolution

variable (state : AnalyzedState) (typeName : String)

/-- A specific import of the type. -/
def importedType (imports : List String) : Option String :=
  imports.find? fun path ↦
    decide (('.' :: typeName.toList) <:+ path.toList) && decide (path ∈ state.typeSchemas)

/-- The type in the package. -/
def packagedType (sourcePackage : String) : Option String :=
  if sourcePackage ≠ "" ∧ sourcePackage ++ "." ++ typeName ∈ state.typeSchemas then
    some (sourcePackage ++ "." ++ typeName)
  else none

/-- The type under a wildcard import: the `*` is replaced by its name. -/
def wildcardType (imports : List String) : Option String :=
  imports.findSome? fun path ↦
    if ['.', '*'] <:+ path.toList then
      let fullName := String.ofList path.toList.dropLast ++ typeName
      if fullName ∈ state.typeSchemas then some fullName else none
    else none

/-- `resolve_type`. -/
def resolveType (sourcePackage : String) (imports : List String) : Option String :=
  if typeName ∈ state.typeSchemas then some typeName
  else if typeName ∈ builtinTypes then some typeName
  else if '.' ∈ typeName.toList then none
  else
    ((importedType state typeName imports).or (packagedType state typeName sourcePackage)).or
      (wildcardType state typeName imports)

end Resolution

/-! ### Analysis -/

section Analysis

variable (state : AnalyzedState) (rule : RuleSource)

/-- The type that a pattern is compiled with (`analyze_pattern`). -/
def analyzeFactType (factType : String) : Except String String :=
  match resolveType state factType rule.sourcePackage rule.sourceImports with
  | some resolved => .ok resolved
  | none =>
    .error ("In rule '" ++ rule.name ++
      "', pattern uses undeclared or unresolvable fact type '" ++ factType ++ "'.")

/-- The name of an inserted type. -/
def resolveTarget (targetType : String) : Except String String :=
  match resolveType state targetType rule.sourcePackage rule.sourceImports with
  | some resolved => .ok resolved
  | none =>
    .error ("In rule '" ++ rule.name ++ "', INSERT uses undeclared type '" ++ targetType ++ "'")

/-- One action of the loop: an insertion has its name resolved, and the others stay. -/
def resolveInsert : CompiledAction → Except String CompiledAction
  | .insert targetType assignments =>
    (resolveTarget state rule targetType).map (.insert · assignments)
  | .insertLogical targetType assignments =>
    (resolveTarget state rule targetType).map (.insertLogical · assignments)
  | action => .ok action

/-- The loop over the actions, which ends at the first error. -/
def resolveInserts : List CompiledAction → List CompiledAction × List String
  | [] => ([], [])
  | action :: actions =>
    match resolveInsert state rule action with
    | .error message => (action :: actions, [message])
    | .ok resolved =>
      let (rest, errors) := resolveInserts actions
      (resolved :: rest, errors)

/-- `RhsParser::parse` of a text, with the bindings and the globals it may use: the actions and the
message of an error. -/
abbrev RhsParse :=
  String → List (String × ℕ) → List String → List CompiledAction × String

def rhsBindings (symbols : SymbolTable) : List (String × ℕ) :=
  (symbols.filter fun symbol ↦ decide (symbol.1.toList.head? = some '$')).map fun symbol ↦
    (symbol.1, symbol.2.depth)

def rhsGlobals : List String :=
  (state.parsedGlobals.filter (· ≠ "")).map ("$" ++ ·)

/-- The actions that the parser gives for the rule. -/
def parsedActions (parse : RhsParse) (symbols : SymbolTable) : List CompiledAction × String :=
  if rule.rhsCode = "" then ([], "")
  else parse rule.rhsCode (rhsBindings symbols) (rhsGlobals state)

/-- `analyze_rhs`: the compiled actions and the errors that are added. -/
def analyzeRhs (parse : RhsParse) (symbols : SymbolTable) : List CompiledAction × List String :=
  let (actions, message) := parsedActions state rule parse symbols
  if actions.isEmpty ∧ message ≠ "" then
    ([], ["In rule '" ++ rule.name ++ "', RHS parse error: " ++ message])
  else resolveInserts state rule actions

end Analysis

/-! ### Inserted types -/

mutual

/-- The types that an action inserts, at any depth, in the order of the text. -/
def CompiledAction.insertedTypes : CompiledAction → List String
  | .insert targetType _ => [targetType]
  | .insertLogical targetType _ => [targetType]
  | .«if» _ thenActions elseActions => insertedTypes thenActions ++ insertedTypes elseActions
  | .switch _ switchCases => caseTypes switchCases
  | .«for» _ _ _ _ bodyActions => insertedTypes bodyActions
  | .«while» _ _ bodyActions => insertedTypes bodyActions
  | .update _ _ => []
  | .retract _ => []
  | .halt => []
  | .setFocus _ => []
  | .«break» => []
  | .«continue» => []

def insertedTypes : List CompiledAction → List String
  | [] => []
  | action :: actions => action.insertedTypes ++ insertedTypes actions

def caseTypes : List (SwitchCase CompiledAction) → List String
  | [] => []
  | ⟨_, actions, _⟩ :: cases => insertedTypes actions ++ caseTypes cases

end

/-! ### What is resolved -/

section Resolved

variable {state : AnalyzedState} {rule : RuleSource} {typeName resolved sourcePackage : String}
  {imports : List String}

theorem AnalyzedState.mem_declaredTypes_of_dot (hmem : resolved ∈ state.typeSchemas)
    (hdot : '.' ∈ resolved.toList) : resolved ∈ state.declaredTypes := by
  rcases List.mem_cons.mp hmem with rfl | hmem
  · -- the one name of the schema that is not declared has no dot
    exact absurd hdot (by decide)
  · exact hmem

theorem importedType_declared (h : importedType state typeName imports = some resolved) :
    resolved ∈ state.declaredTypes := by
  have hfound := List.find?_some h
  simp only [Bool.and_eq_true, decide_eq_true_eq] at hfound
  exact AnalyzedState.mem_declaredTypes_of_dot hfound.2 (hfound.1.subset List.mem_cons_self)

theorem packagedType_declared (h : packagedType state typeName sourcePackage = some resolved) :
    resolved ∈ state.declaredTypes := by
  unfold packagedType at h
  split at h
  · rename_i hmem
    cases h
    refine AnalyzedState.mem_declaredTypes_of_dot hmem.2 ?_
    rw [String.toList_append, String.toList_append]
    exact List.mem_append_left _ (List.mem_append_right _ List.mem_cons_self)
  · contradiction

theorem wildcardType_declared (h : wildcardType state typeName imports = some resolved) :
    resolved ∈ state.declaredTypes := by
  obtain ⟨path, -, hpath⟩ := List.exists_of_findSome?_eq_some h
  dsimp only at hpath
  split at hpath
  · rename_i hsuffix
    split at hpath
    · rename_i hmem
      cases hpath
      refine AnalyzedState.mem_declaredTypes_of_dot hmem ?_
      -- what comes before the `*` ends in a dot
      obtain ⟨before, hbefore⟩ := hsuffix
      rw [String.toList_append, String.toList_ofList, ← hbefore]
      refine List.mem_append_left _ ?_
      rw [List.dropLast_append_of_ne_nil (List.cons_ne_nil _ _)]
      exact List.mem_append_right _ List.mem_cons_self
    · contradiction
  · contradiction

/-- The declared name of a type stands for itself. -/
theorem resolveType_of_declared (h : typeName ∈ state.declaredTypes) :
    resolveType state typeName sourcePackage imports = some typeName :=
  if_pos (List.mem_cons_of_mem _ h)

theorem resolveType_of_builtin (h : typeName ∈ builtinTypes) :
    resolveType state typeName sourcePackage imports = some typeName := by
  unfold resolveType
  split
  · rfl
  · rfl

/-- **A name is resolved to a declared type** unless it is a built-in one that is not declared. -/
theorem resolveType_declared_iff
    (h : resolveType state typeName sourcePackage imports = some resolved) :
    resolved ∈ state.declaredTypes ↔
      (typeName ∈ builtinTypes → typeName ∈ state.declaredTypes) := by
  constructor
  · intro hdeclared hbuiltin
    rw [resolveType_of_builtin hbuiltin] at h
    cases h
    exact hdeclared
  · intro hbuiltin
    unfold resolveType at h
    split at h
    · rename_i hmem
      cases h
      rcases List.mem_cons.mp hmem with rfl | hmem
      · exact hbuiltin (by decide)
      · exact hmem
    split at h
    · rename_i hmem
      cases h
      exact hbuiltin hmem
    split at h
    · contradiction
    · rcases Option.or_eq_some_iff.mp h with h | ⟨-, h⟩
      · rcases Option.or_eq_some_iff.mp h with h | ⟨-, h⟩
        · exact importedType_declared h
        · exact packagedType_declared h
      · exact wildcardType_declared h

theorem analyzeFactType_eq_ok :
    analyzeFactType state rule typeName = .ok resolved ↔
      resolveType state typeName rule.sourcePackage rule.sourceImports = some resolved := by
  unfold analyzeFactType
  cases resolveType state typeName rule.sourcePackage rule.sourceImports with
  | none => simp
  | some => simp

end Resolved

/-! ### What the actions insert -/

section Inserts

variable (state : AnalyzedState) (rule : RuleSource)

/-- The written name of an inserted type and the compiled one: the latter is declared, and the
patterns over the type have it as well. -/
structure InsertsDeclared (written compiled : String) : Prop where
  declared : compiled ∈ state.declaredTypes
  pattern : analyzeFactType state rule written = .ok compiled

/-- Where the types that an action inserts are named so that they are found: an insertion at the top
level is not one of an undeclared built-in type, and those inside of other actions have names that
are declared as they are. -/
def CompiledAction.NamesDeclared (action : CompiledAction) : Prop :=
  match action with
  | .insert targetType _ | .insertLogical targetType _ =>
    targetType ∈ builtinTypes → targetType ∈ state.declaredTypes
  | action => ∀ targetType ∈ action.insertedTypes, targetType ∈ state.declaredTypes

variable {state rule}

theorem insertsDeclared_iff {written compiled : String}
    (h : resolveType state written rule.sourcePackage rule.sourceImports = some compiled) :
    InsertsDeclared state rule written compiled ↔
      (written ∈ builtinTypes → written ∈ state.declaredTypes) := by
  rw [← resolveType_declared_iff h]
  exact ⟨fun hinserts ↦ hinserts.declared, fun hdeclared ↦
    ⟨hdeclared, analyzeFactType_eq_ok.mpr h⟩⟩

/-- A name that is kept. -/
theorem insertsDeclared_self {written : String} :
    InsertsDeclared state rule written written ↔ written ∈ state.declaredTypes :=
  ⟨fun hinserts ↦ hinserts.declared, fun hdeclared ↦
    ⟨hdeclared, analyzeFactType_eq_ok.mpr (resolveType_of_declared hdeclared)⟩⟩

theorem resolveTarget_map {f : String → CompiledAction} {written : String}
    {resolved : CompiledAction} (h : (resolveTarget state rule written).map f = .ok resolved) :
    ∃ compiled, resolveType state written rule.sourcePackage rule.sourceImports = some compiled ∧
      resolved = f compiled := by
  unfold resolveTarget at h
  cases hresolve : resolveType state written rule.sourcePackage rule.sourceImports with
  | none =>
    rw [hresolve] at h
    cases h
  | some compiled =>
    rw [hresolve] at h
    cases h
    exact ⟨compiled, rfl, rfl⟩

/-- An action is one insertion, whose name is resolved, or it is left alone with all that is
inside. -/
theorem resolveInsert_cases {action resolved : CompiledAction}
    (h : resolveInsert state rule action = .ok resolved) :
    (∃ written compiled,
        resolveType state written rule.sourcePackage rule.sourceImports = some compiled ∧
        action.insertedTypes = [written] ∧ resolved.insertedTypes = [compiled] ∧
        (action.NamesDeclared state ↔
          (written ∈ builtinTypes → written ∈ state.declaredTypes))) ∨
      resolved = action ∧ (action.NamesDeclared state ↔
        ∀ targetType ∈ action.insertedTypes, targetType ∈ state.declaredTypes) := by
  cases action with
  | insert written assignments =>
    obtain ⟨compiled, hresolve, rfl⟩ := resolveTarget_map h
    exact .inl ⟨written, compiled, hresolve, rfl, rfl, Iff.rfl⟩
  | insertLogical written assignments =>
    obtain ⟨compiled, hresolve, rfl⟩ := resolveTarget_map h
    exact .inl ⟨written, compiled, hresolve, rfl, rfl, Iff.rfl⟩
  | _ => exact .inr ⟨(Except.ok.inj h).symm, Iff.rfl⟩

theorem length_insertedTypes_resolveInsert {action resolved : CompiledAction}
    (h : resolveInsert state rule action = .ok resolved) :
    action.insertedTypes.length = resolved.insertedTypes.length := by
  rcases resolveInsert_cases h with ⟨written, compiled, -, hwritten, hcompiled, -⟩ | ⟨rfl, -⟩
  · rw [hwritten, hcompiled]
    rfl
  · rfl

/-- **One action** at the top level. -/
theorem resolveInsert_declared_iff {action resolved : CompiledAction}
    (h : resolveInsert state rule action = .ok resolved) :
    List.Forall₂ (InsertsDeclared state rule) action.insertedTypes resolved.insertedTypes ↔
      action.NamesDeclared state := by
  rcases resolveInsert_cases h with
    ⟨written, compiled, hresolve, hwritten, hcompiled, hnames⟩ | ⟨rfl, hnames⟩
  · rw [hwritten, hcompiled, List.forall₂_cons, and_iff_left List.Forall₂.nil, hnames]
    exact insertsDeclared_iff hresolve
  · rw [List.forall₂_same, hnames]
    exact forall₂_congr fun _ _ ↦ insertsDeclared_self

theorem forall₂_append_iff {α β : Type} {R : α → β → Prop} {l₁ l₂ : List α} {r₁ r₂ : List β}
    (h : l₁.length = r₁.length) :
    List.Forall₂ R (l₁ ++ l₂) (r₁ ++ r₂) ↔ List.Forall₂ R l₁ r₁ ∧ List.Forall₂ R l₂ r₂ := by
  induction l₁ generalizing r₁ with
  | nil =>
    cases r₁ with
    | nil => exact (and_iff_right List.Forall₂.nil).symm
    | cons b r₁ => contradiction
  | cons a l₁ ih =>
    cases r₁ with
    | nil => contradiction
    | cons b r₁ =>
      rw [List.cons_append, List.cons_append, List.forall₂_cons, List.forall₂_cons, and_assoc,
        ih (Nat.succ.inj h)]

/-- **The loop over the actions**, by induction on them. -/
theorem resolveInserts_declared_iff {actions : List CompiledAction}
    (h : (resolveInserts state rule actions).2 = []) :
    List.Forall₂ (InsertsDeclared state rule) (insertedTypes actions)
        (insertedTypes (resolveInserts state rule actions).1) ↔
      ∀ action ∈ actions, action.NamesDeclared state := by
  induction actions with
  | nil => exact iff_of_true List.Forall₂.nil fun _ hmem ↦ absurd hmem List.not_mem_nil
  | cons action actions ih =>
    unfold resolveInserts at h ⊢
    cases hresolve : resolveInsert state rule action with
    | error message =>
      rw [hresolve] at h
      cases h
    | ok resolved =>
      rw [hresolve] at h
      dsimp only at h ⊢
      rw [insertedTypes, insertedTypes,
        forall₂_append_iff (length_insertedTypes_resolveInsert hresolve), ih h,
        resolveInsert_declared_iff hresolve, List.forall_mem_cons]

/-- **Which right-hand sides insert declared types.** Where the analysis adds no error, every type
that is inserted, at any depth, is compiled to a declared one, as in patterns, if and only if
the names meet the condition. -/
theorem rhs_declared_iff {parse : RhsParse} {symbols : SymbolTable}
    (h : (analyzeRhs state rule parse symbols).2 = []) :
    List.Forall₂ (InsertsDeclared state rule)
        (insertedTypes (parsedActions state rule parse symbols).1)
        (insertedTypes (analyzeRhs state rule parse symbols).1) ↔
      ∀ action ∈ (parsedActions state rule parse symbols).1, action.NamesDeclared state := by
  unfold analyzeRhs at h ⊢
  dsimp only at h ⊢
  split at h
  · cases h
  · rename_i hparsed
    rw [if_neg hparsed]
    exact resolveInserts_declared_iff h

end Inserts

/-! ### An insertion inside of a condition -/

/-- What the parser makes of the text of `alertRule`. -/
def parseAlert : RhsParse := fun _ _ _ ↦
  ([.«if» (some "1 > 0".toList) [.insert "Alert" []] [], .insert "Alert" []], "")

def alertRule (sourcePackage : String) : RuleSource where
  name := "raise"
  rhsCode := "if 1 > 0 { insert Alert { } } insert Alert { }"
  sourcePackage := sourcePackage

def alertState (sourcePackage : String) : AnalyzedState where
  parsedDeclarations := [⟨"Alert", sourcePackage⟩]

/-- Without a package both insertions are of the declared type. -/
theorem rhs_declared_without_package :
    List.Forall₂ (InsertsDeclared (alertState "") (alertRule ""))
      (insertedTypes (parsedActions (alertState "") (alertRule "") parseAlert []).1)
      (insertedTypes (analyzeRhs (alertState "") (alertRule "") parseAlert []).1) := by
  have haccepted : (analyzeRhs (alertState "") (alertRule "") parseAlert []).2 = [] := by
    decide +kernel
  have hdeclared : "Alert" ∈ (alertState "").declaredTypes := by decide +kernel
  refine (rhs_declared_iff haccepted).mpr fun action hmem ↦ ?_
  have hparsed : (parsedActions (alertState "") (alertRule "") parseAlert []).1 =
      (parseAlert "" [] []).1 := rfl
  rw [hparsed] at hmem
  rcases List.mem_cons.mp hmem with rfl | hmem
  · -- the names inside of the condition
    intro targetType htype
    rw [List.mem_singleton.mp htype]
    exact hdeclared
  · rw [List.mem_singleton.mp hmem]
    exact fun _ ↦ hdeclared

/-- In a package the insertion at the top level is resolved and the other one is not. -/
theorem unresolved_insert :
    (analyzeRhs (alertState "shop") (alertRule "shop") parseAlert []).2 = [] ∧
      insertedTypes (analyzeRhs (alertState "shop") (alertRule "shop") parseAlert []).1 =
        ["Alert", "shop.Alert"] ∧
      ¬List.Forall₂ (InsertsDeclared (alertState "shop") (alertRule "shop"))
        (insertedTypes (parsedActions (alertState "shop") (alertRule "shop") parseAlert []).1)
        (insertedTypes (analyzeRhs (alertState "shop") (alertRule "shop") parseAlert []).1) := by
  have hinserted :
      insertedTypes (analyzeRhs (alertState "shop") (alertRule "shop") parseAlert []).1 =
        ["Alert", "shop.Alert"] := by decide +kernel
  refine ⟨by decide +kernel, hinserted, fun hall ↦ ?_⟩
  rw [hinserted] at hall
  have hdeclared := (List.forall₂_cons.mp hall).1.declared
  exact absurd hdeclared (by decide +kernel)

end RulesForge
