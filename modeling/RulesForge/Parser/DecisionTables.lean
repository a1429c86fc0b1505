import RulesForge.Parser.DecisionTableConditions

/-!
# Decision tables

`DirectTableCompiler::compile` (`src/decision_table_compiler.cpp`) compiles a table row by row. When
it cannot read a row, the whole table is written as rules (`src/decision_table_converter.cpp`) and
the parser reads them. Preambles are left out.

Either path reads headers on its own: the compiler trims them and passes over the case of letters,
the converter takes them as they are. What a row says (`RowTexts`) is the same for both when the
table is **canonical**.
-/

namespace RulesForge

namespace DecisionTable

/-! ### Tables -/

/-- `DecisionTable` without its preamble. -/
structure Table where
  headers : List (List Char)
  data : List (List (List Char))

inductive ColumnType where
  | condition | action | ruleName | salience | agendaGroup | other
  deriving DecidableEq, Repr

structure ColumnDefinition where
  type : ColumnType := .other
  templateText : List Char := []
  deriving DecidableEq

/-- `substitute`: the value in the place of the first `$1`. -/
def substitute (value : List Char) : List Char → List Char
  | '$' :: '1' :: rest => value ++ rest
  | c :: rest => c :: substitute value rest
  | [] => []

/-- The last column of a type. -/
def lastColumn (type : ColumnType) : List ColumnDefinition → Option ℕ
  | [] => none
  | column :: columns =>
    match lastColumn type columns with
    | some i => some (i + 1)
    | none => if column.type = type then some 0 else none

/-- What a row says: attributes as they are written, and what is substituted into the templates. -/
structure RowTexts where
  name : Option (List Char)
  salience : Option (List Char)
  agendaGroup : Option (List Char)
  conditions : List (List Char)
  actions : List (List Char)

/-- The name of a rule without one. -/
def rowName (index : ℕ) : List Char :=
  "DecisionTable_Row_".toList ++ (toString (index + 1)).toList

/-! ### The compiler -/

/-- `parse_dt_column_type`. -/
def parseDtColumnType (header : List Char) : ColumnType :=
  if lowerCase header = lowerCase "Rule Name".toList then .ruleName
  else if lowerCase header = lowerCase "Salience".toList then .salience
  else if lowerCase header = lowerCase "agenda-group".toList then .agendaGroup
  else .other

/-- A column of `build_column_layout`. -/
def directColumn (header : List Char) : ColumnDefinition :=
  let h := trimAscii header
  if startsWithCi h "condition:".toList then
    { type := .condition, templateText := trimAscii (h.drop 10) }
  else if startsWithCi h "action:".toList then
    { type := .action, templateText := trimAscii (h.drop 7) }
  else { type := parseDtColumnType h }

/-- `build_column_layout`. -/
def buildColumnLayout (headers : List (List Char)) : List ColumnDefinition :=
  let columns := headers.map directColumn
  match headers, columns with
  | header :: _, column :: rest =>
    if columns.all (·.type ≠ .ruleName) && trimAscii header = [] then
      { column with type := .ruleName } :: rest
    else columns
  | _, _ => columns

/-- `get_effective_cell`. -/
def getEffectiveCell (row : List (List Char)) (column : Option ℕ) : Option (List Char) :=
  match column.bind (row[·]?) with
  | some cell =>
    if trimAscii cell = [] ∨ trimAscii cell = ['*'] then none else some (trimAscii cell)
  | none => none

/-- The cells of a row with a template, substituted. -/
def directTemplates (type : ColumnType) (columns : List ColumnDefinition)
    (row : List (List Char)) : List (List Char) :=
  (row.zip columns).filterMap fun cell ↦
    if cell.2.type = type ∧ trimAscii cell.1 ≠ [] ∧ trimAscii cell.1 ≠ ['*'] then
      some (substitute (trimAscii cell.1) cell.2.templateText)
    else none

/-- What `compile_row` reads of a row. -/
def directTexts (columns : List ColumnDefinition) (row : List (List Char)) : RowTexts :=
  { name := getEffectiveCell row (lastColumn .ruleName columns)
    salience := getEffectiveCell row (lastColumn .salience columns)
    agendaGroup := getEffectiveCell row (lastColumn .agendaGroup columns)
    conditions := directTemplates .condition columns row
    actions := directTemplates .action columns row }

/-- `std::stoi`. -/
def stoi (text : List Char) : Option ℤ :=
  (stoll text).filter fun value ↦ -2 ^ 31 ≤ value ∧ value < 2 ^ 31

/-- A compiled row: the rule, whether its salience was given, and its right-hand side. -/
structure RowRule where
  rule : ParsedRule
  salienceExplicitlySet : Bool
  rhsCode : List Char

inductive ParserPathReason where
  | salienceParse | conditionParse
  deriving DecidableEq, Repr

section Compiler

variable (stod : List Char → Option Double)

/-- The salience of a rule, if one is written. -/
def readSalience : Option (List Char) → Except ParserPathReason (ℤ × Bool)
  | none => .ok (0, false)
  | some text =>
    match stoi text with
    | some salience => .ok (salience, true)
    | none => .error .salienceParse

/-- `compile_row`, for what it reads of the row. -/
def RowTexts.compile (texts : RowTexts) (index : ℕ) : Except ParserPathReason RowRule :=
  match readSalience texts.salience with
  | .error reason => .error reason
  | .ok (salience, explicitly) =>
    match texts.conditions.mapM (parseConditionPattern stod) with
    | none => .error .conditionParse
    | some patterns =>
      .ok
        { rule :=
            { name := String.ofList (texts.name.getD (rowName index)), salience := salience
              agendaGroup := texts.agendaGroup.map String.ofList
              conditionGroups := [patterns] }
          salienceExplicitlySet := explicitly
          rhsCode := (texts.actions.map (· ++ ['\n'])).flatten }

/-- The loop over the rows. Empty rows are skipped, but counted. -/
def compileRows (columns : List ColumnDefinition) :
    ℕ → List (List (List Char)) → Except ParserPathReason (List RowRule)
  | _, [] => .ok []
  | index, row :: rows =>
    if row = [] then compileRows columns (index + 1) rows
    else
      match (directTexts columns row).compile stod index with
      | .error reason => .error reason
      | .ok rule =>
        match compileRows columns (index + 1) rows with
        | .error reason => .error reason
        | .ok rules => .ok (rule :: rules)

end Compiler

/-! ### The converter -/

/-- `parse_column_type`. -/
def parseColumnType (header : List Char) : ColumnType :=
  if header = "CONDITION".toList then .condition
  else if header = "ACTION".toList then .action
  else if header = "Rule Name".toList then .ruleName
  else if header = "Salience".toList then .salience
  else if header = "agenda-group".toList then .agendaGroup
  else .other

/-- A column of the converter. -/
def converterColumn (header : List Char) : ColumnDefinition :=
  if "CONDITION: ".toList.isPrefixOf header then
    { type := .condition, templateText := header.drop 11 }
  else if "ACTION: ".toList.isPrefixOf header then
    { type := .action, templateText := header.drop 8 }
  else { type := parseColumnType header }

/-- An attribute of a row, unless it is empty or one of the texts that stand for no value. -/
def converterCell (row : List (List Char)) (column : Option ℕ) (noValue : List (List Char)) :
    Option (List Char) :=
  match column.bind (row[·]?) with
  | some cell => if cell ∈ noValue then none else some cell
  | none => none

def converterTemplates (type : ColumnType) (columns : List ColumnDefinition)
    (row : List (List Char)) : List (List Char) :=
  (row.zip columns).filterMap fun cell ↦
    if cell.2.type = type ∧ cell.1 ≠ [] ∧ cell.1 ≠ ['*'] then
      some (substitute cell.1 cell.2.templateText)
    else none

/-- What `generate_drl` reads of a row: a star is a name, but no other attribute. -/
def converterTexts (columns : List ColumnDefinition) (row : List (List Char)) : RowTexts :=
  { name := converterCell row (lastColumn .ruleName columns) [[]]
    salience := converterCell row (lastColumn .salience columns) [[], ['*']]
    agendaGroup := converterCell row (lastColumn .agendaGroup columns) [[], ['*']]
    conditions := converterTemplates .condition columns row
    actions := converterTemplates .action columns row }

/-- The rule that is written for a row. -/
def RowTexts.drl (texts : RowTexts) (index : ℕ) : List Char :=
  "rule \"".toList ++ texts.name.getD (rowName index) ++ "\"\n".toList ++
    (texts.salience.elim [] fun salience ↦ "salience ".toList ++ salience ++ ['\n']) ++
    (texts.agendaGroup.elim [] fun group ↦ "agenda-group \"".toList ++ group ++ "\"\n".toList) ++
    "when\n".toList ++
    (texts.conditions.map ("    ".toList ++ · ++ ['\n'])).flatten ++ "then\n".toList ++
    (texts.actions.map ("    ".toList ++ · ++ ['\n'])).flatten ++ "end\n\n".toList

/-- The rules of the rows from an index on, by what is read of a row. -/
def writeRows (read : List (List Char) → RowTexts) : ℕ → List (List (List Char)) → List Char
  | _, [] => []
  | index, row :: rows =>
    (if row = [] then [] else (read row).drl index) ++ writeRows read (index + 1) rows

/-- `generate_drl`. -/
def Table.generateDrl (table : Table) : List Char :=
  if table.data = [] then []
  else '\n' :: writeRows (converterTexts (table.headers.map converterColumn)) 0 table.data

/-! ### Compiled tables -/

/-- What a table is compiled to: rules, or a text for the parser with the reason. -/
inductive Compiled where
  | direct (rules : List RowRule)
  | parserPath (reason : ParserPathReason) (text : List Char)

/-- `DirectTableCompiler::compile`. -/
def Table.compile (stod : List Char → Option Double) (table : Table) : Compiled :=
  match compileRows stod (buildColumnLayout table.headers) 0 table.data with
  | .ok rules => .direct rules
  | .error reason => .parserPath reason table.generateDrl

/-- The rows that are not empty, with their places in the table. -/
def numberedRows (index : ℕ) (rows : List (List (List Char))) : List (List (List Char) × ℕ) :=
  (rows.zipIdx index).filter (·.1 ≠ [])

section Rows

variable {stod : List Char → Option Double} {columns : List ColumnDefinition}
  {row : List (List Char)} {rows : List (List (List Char))} {index : ℕ}

theorem numberedRows_nil (index : ℕ) : numberedRows index [] = [] := rfl

theorem numberedRows_skip (index : ℕ) (rows : List (List (List Char))) :
    numberedRows index ([] :: rows) = numberedRows (index + 1) rows := rfl

theorem numberedRows_cons (hrow : row ≠ []) :
    numberedRows index (row :: rows) = (row, index) :: numberedRows (index + 1) rows := by
  rw [numberedRows, List.zipIdx_cons, List.filter_cons_of_pos (by simpa using hrow)]
  rfl

/-- The loop gives rules when every row gives one, in their order. -/
theorem compileRows_ok_iff {rules : List RowRule} :
    compileRows stod columns index rows = .ok rules ↔
      List.Forall₂ (fun r rule ↦ (directTexts columns r.1).compile stod r.2 = .ok rule)
        (numberedRows index rows) rules := by
  induction rows generalizing index rules with
  | nil =>
    rw [numberedRows_nil, List.forall₂_nil_left_iff]
    exact ⟨fun h ↦ (Except.ok.inj h).symm, fun h ↦ congrArg Except.ok h.symm⟩
  | cons row rows ih =>
    by_cases hrow : row = []
    · subst hrow
      rw [numberedRows_skip, compileRows, if_pos rfl]
      exact ih
    · rw [numberedRows_cons hrow, compileRows, if_neg hrow, List.forall₂_cons_left_iff]
      cases hcompile : (directTexts columns row).compile stod index with
      | error reason =>
        constructor
        · intro h
          cases h
        · rintro ⟨rule, rules', hrule, -, -⟩
          cases hrule
      | ok rule =>
        cases hrest : compileRows stod columns (index + 1) rows with
        | error reason =>
          constructor
          · intro h
            cases h
          · rintro ⟨rule', rules', -, hrules, -⟩
            cases hrest.symm.trans (ih.mpr hrules)
        | ok rules' =>
          constructor
          · intro h
            exact ⟨rule, rules', rfl, ih.mp hrest, (Except.ok.inj h).symm⟩
          · rintro ⟨rule', rules'', hrule, hrules, rfl⟩
            obtain rfl := Except.ok.inj hrule
            obtain rfl := Except.ok.inj (hrest.symm.trans (ih.mpr hrules))
            rfl

/-- The loop fails as one of the rows does. -/
theorem exists_of_compileRows_error {reason : ParserPathReason}
    (h : compileRows stod columns index rows = .error reason) :
    ∃ r ∈ numberedRows index rows, (directTexts columns r.1).compile stod r.2 = .error reason := by
  induction rows generalizing index with
  | nil => cases h
  | cons row rows ih =>
    by_cases hrow : row = []
    · subst hrow
      rw [compileRows, if_pos rfl] at h
      exact ih h
    · rw [numberedRows_cons hrow]
      rw [compileRows, if_neg hrow] at h
      cases hcompile : (directTexts columns row).compile stod index with
      | error reason' =>
        rw [hcompile] at h
        obtain rfl := Except.error.inj h
        exact ⟨(row, index), List.mem_cons_self, hcompile⟩
      | ok rule =>
        rw [hcompile] at h
        cases hrest : compileRows stod columns (index + 1) rows with
        | error reason' =>
          rw [hrest] at h
          obtain rfl := Except.error.inj h
          obtain ⟨r, hr, hreason⟩ := ih hrest
          exact ⟨r, List.mem_cons_of_mem _ hr, hreason⟩
        | ok rules =>
          rw [hrest] at h
          cases h

/-- The text has a rule for each row, in their order. -/
theorem writeRows_eq (read : List (List Char) → RowTexts) :
    writeRows read index rows =
      ((numberedRows index rows).map fun r ↦ (read r.1).drl r.2).flatten := by
  induction rows generalizing index with
  | nil => rfl
  | cons row rows ih =>
    by_cases hrow : row = []
    · subst hrow
      rw [numberedRows_skip, writeRows, if_pos rfl, List.nil_append, ih]
    · rw [numberedRows_cons hrow, writeRows, if_neg hrow, ih, List.map_cons, List.flatten_cons]

theorem mem_of_mem_numberedRows {r : List (List Char) × ℕ} (h : r ∈ numberedRows index rows) :
    r.1 ∈ rows := by
  obtain ⟨hmem, -⟩ := List.mem_filter.mp h
  exact List.fst_mem_of_mem_zipIdx hmem

end Rows

/-! ### The rules of a table -/

/-- The salience a text says, and whether it says one. -/
inductive SaysSalience : Option (List Char) → ℤ → Bool → Prop
  | unwritten : SaysSalience none 0 false
  | written {text : List Char} {salience : ℤ} : stoi text = some salience →
      SaysSalience (some text) salience true

/-- **The rule that a row says**: its patterns are those of its condition texts, in the order of the
columns, and its right-hand side has a line for each action. -/
inductive RowTexts.Says (texts : RowTexts) (index : ℕ) : RowRule → Prop
  | mk {salience : ℤ} {explicitly : Bool} {patterns : List ParsedPattern} :
      SaysSalience texts.salience salience explicitly →
      List.Forall₂ IsPattern texts.conditions patterns →
      texts.Says index
        { rule :=
            { name := String.ofList (texts.name.getD (rowName index)), salience := salience
              agendaGroup := texts.agendaGroup.map String.ofList
              conditionGroups := [patterns] }
          salienceExplicitlySet := explicitly
          rhsCode := (texts.actions.map (· ++ ['\n'])).flatten }

section Says

variable {texts : RowTexts} {index : ℕ} {rule : RowRule}

theorem SaysSalience.read {text : Option (List Char)} {salience : ℤ} {explicitly : Bool}
    (h : SaysSalience text salience explicitly) :
    readSalience text = .ok (salience, explicitly) := by
  cases h with
  | unwritten => rfl
  | written hstoi =>
    rw [readSalience]
    simp only [hstoi]

theorem mapM_patterns {conditions : List (List Char)} {patterns : List ParsedPattern}
    (stod : List Char → Option Double) (h : List.Forall₂ IsPattern conditions patterns) :
    conditions.mapM (parseConditionPattern stod) = some patterns := by
  induction h with
  | nil => rfl
  | cons hpattern _ ih =>
    rw [List.mapM_cons, hpattern.parse stod, ih]
    rfl

/-- A row is compiled to the rule it says. -/
theorem RowTexts.Says.compile (stod : List Char → Option Double) (h : texts.Says index rule) :
    texts.compile stod index = .ok rule := by
  obtain ⟨hsalience, hpatterns⟩ := h
  rw [RowTexts.compile, hsalience.read, mapM_patterns stod hpatterns]

/-- **A table is compiled to the rules its rows say**: where every row that is not empty says a
rule, the compiler takes the direct path and gives these rules, each once and in order. -/
theorem Table.compile_says (stod : List Char → Option Double) {table : Table}
    {rules : List RowRule}
    (h : List.Forall₂ (fun r rule ↦
      (directTexts (buildColumnLayout table.headers) r.1).Says r.2 rule)
      (numberedRows 0 table.data) rules) :
    table.compile stod = .direct rules := by
  have hrows : compileRows stod (buildColumnLayout table.headers) 0 table.data = .ok rules :=
    compileRows_ok_iff.mpr (h.imp fun _ _ hsays ↦ hsays.compile stod)
  rw [Table.compile, hrows]

end Says

/-- A table in which one row has a condition and one has none. -/
def greetings : Table :=
  { headers := [[], "condition: $1()".toList, "Action: $1".toList]
    data := [["vip".toList, " exists Customer ".toList, "halt".toList], [],
      ["rest".toList, "*".toList]] }

/-- Headers in whatever case and cells with white space around them are read. -/
theorem Table.compile_says_greetings :
    greetings.compile (fun _ ↦ none) = .direct
      [{ rule :=
          { name := String.ofList "vip".toList, salience := 0, agendaGroup := none
            conditionGroups := [[{ type := .exists, binding := String.ofList []
                                   factType := String.ofList "Customer".toList
                                   constraintRoot := none }]] }
         salienceExplicitlySet := false, rhsCode := "halt".toList ++ ['\n'] ++ [] },
       { rule :=
          { name := String.ofList "rest".toList, salience := 0, agendaGroup := none
            conditionGroups := [[]] }
         salienceExplicitlySet := false, rhsCode := [] }] := by
  have hcustomer : IsPattern "exists Customer()".toList
      { type := .exists, binding := String.ofList [], factType := String.ofList "Customer".toList
        constraintRoot := none } :=
    @IsPattern.mk [] ("exists".toList ++ [' ']) [] [] "Customer".toList [] [] .exists none blank_nil
      (.existential rfl blank_nil) .unbound ⟨'C', "ustomer".toList, rfl, rfl, rfl⟩
      (.empty blank_nil) blank_nil
  exact Table.compile_says (fun _ ↦ none)
    (.cons (.mk .unwritten (.cons hcustomer .nil)) (.cons (.mk .unwritten .nil) .nil))

/-! ### Canonical tables -/

/-- A header that both paths read alike: a template after `CONDITION: ` or `ACTION: `, the name of
an attribute, or a text that neither of them knows. -/
inductive IsCanonicalHeader : List Char → Prop
  | condition {template : List Char} : Tight template →
      IsCanonicalHeader ("CONDITION: ".toList ++ template)
  | action {template : List Char} : Tight template →
      IsCanonicalHeader ("ACTION: ".toList ++ template)
  | ruleName : IsCanonicalHeader "Rule Name".toList
  | salience : IsCanonicalHeader "Salience".toList
  | agendaGroup : IsCanonicalHeader "agenda-group".toList
  | other {header : List Char} : trimAscii header = header →
      startsWithCi header "condition:".toList = false →
      startsWithCi header "action:".toList = false → parseDtColumnType header = .other →
      header ≠ "CONDITION".toList → header ≠ "ACTION".toList → IsCanonicalHeader header

/-- **A canonical table**: canonical headers, of which one is `Rule Name` or the first is not empty,
cells without white space around them, and no star for a name. -/
structure Table.Canonical (table : Table) : Prop where
  headers : ∀ header ∈ table.headers, IsCanonicalHeader header
  named : "Rule Name".toList ∈ table.headers ∨ table.headers.head? ≠ some []
  cells : ∀ row ∈ table.data, ∀ cell ∈ row, trimAscii cell = cell
  names : ∀ row ∈ table.data,
    (lastColumn .ruleName (table.headers.map converterColumn)).bind (row[·]?) ≠ some ['*']

section Canonical

variable {header template : List Char} {row : List (List Char)}
  {columns : List ColumnDefinition}

theorem tight_append {front : List Char} (hfront : isSpace (front.headD ' ') = false)
    (h : Tight template) : Tight (front ++ template) := by
  obtain ⟨init, d, hlast, hd⟩ := h.last
  cases front with
  | nil => cases hfront
  | cons c front => exact ⟨⟨c, front ++ template, rfl, hfront⟩,
      ⟨c :: front ++ init, d, by rw [hlast, List.append_assoc], hd⟩⟩

/-- A prefix in its own case is one in whatever case. -/
theorem startsWithCi_of_isPrefixOf {front front' kw : List Char}
    (h : (front ++ front').isPrefixOf header = true) (hfront : lowerCase front = kw)
    (hkw : ∀ c ∈ kw, c.toLower = c) : startsWithCi header kw = true := by
  obtain ⟨rest, rfl⟩ := List.isPrefixOf_iff_prefix.mp h
  rw [List.append_assoc]
  exact startsWithCi_of_lowerCase hfront hkw _

theorem startsWithCi_of_ne {c d : Char} (hc : c.toLower ≠ d.toLower) (rest kw : List Char) :
    startsWithCi (c :: rest) (d :: kw) = false := by
  rw [startsWithCi_cons, decide_eq_false hc]
  rfl

/-- Both paths read a canonical header alike. -/
theorem IsCanonicalHeader.column (h : IsCanonicalHeader header) :
    directColumn header = converterColumn header := by
  cases h with
  | @condition template htemplate =>
    have hstart : startsWithCi ("CONDITION: ".toList ++ template) "condition:".toList = true :=
      @startsWithCi_of_lowerCase "CONDITION:".toList _ rfl (by decide) (' ' :: template)
    have hprefix : "CONDITION: ".toList.isPrefixOf ("CONDITION: ".toList ++ template) = true :=
      List.isPrefixOf_iff_prefix.mpr (List.prefix_append _ _)
    rw [directColumn, converterColumn, (tight_append rfl htemplate).trim, if_pos hprefix]
    simp only [hstart, if_true]
    exact congrArg (ColumnDefinition.mk .condition) (trimAscii_front blank_space htemplate)
  | @action template htemplate =>
    have hstart : startsWithCi ("ACTION: ".toList ++ template) "action:".toList = true :=
      @startsWithCi_of_lowerCase "ACTION:".toList _ rfl (by decide) (' ' :: template)
    have hprefix : "ACTION: ".toList.isPrefixOf ("ACTION: ".toList ++ template) = true :=
      List.isPrefixOf_iff_prefix.mpr (List.prefix_append _ _)
    have hcondition : startsWithCi ("ACTION: ".toList ++ template) "condition:".toList = false :=
      startsWithCi_of_ne (by decide) _ _
    have hother : "CONDITION: ".toList.isPrefixOf ("ACTION: ".toList ++ template) = false := rfl
    rw [directColumn, converterColumn, (tight_append rfl htemplate).trim, if_pos hprefix]
    simp only [hcondition, hstart, hother, Bool.false_eq_true, if_true, if_false]
    exact congrArg (ColumnDefinition.mk .action) (trimAscii_front blank_space htemplate)
  | ruleName => rfl
  | salience => rfl
  | agendaGroup => rfl
  | other htrim hcondition haction htype hne hne' =>
    have hconverter : parseColumnType header = .other := by
      rw [parseDtColumnType] at htype
      rw [parseColumnType, if_neg hne, if_neg hne', if_neg, if_neg, if_neg]
      · rintro rfl
        cases htype
      · rintro rfl
        cases htype
      · rintro rfl
        cases htype
    have hnotCondition : ¬ "CONDITION: ".toList.isPrefixOf header = true := by
      intro hprefix
      have hstart : startsWithCi header "condition:".toList = true :=
        @startsWithCi_of_isPrefixOf header "CONDITION:".toList [' '] _ hprefix rfl (by decide)
      exact Bool.false_ne_true (hcondition.symm.trans hstart)
    have hnotAction : ¬ "ACTION: ".toList.isPrefixOf header = true := by
      intro hprefix
      have hstart : startsWithCi header "action:".toList = true :=
        @startsWithCi_of_isPrefixOf header "ACTION:".toList [' '] _ hprefix rfl (by decide)
      exact Bool.false_ne_true (haction.symm.trans hstart)
    rw [directColumn, converterColumn, htrim, if_neg hnotCondition, if_neg hnotAction, hconverter]
    simp only [hcondition, haction, Bool.false_eq_true, if_false, htype]

theorem IsCanonicalHeader.trim (h : IsCanonicalHeader header) : trimAscii header = header := by
  cases h with
  | condition htemplate => exact (tight_append rfl htemplate).trim
  | action htemplate => exact (tight_append rfl htemplate).trim
  | ruleName => rfl
  | salience => rfl
  | agendaGroup => rfl
  | other htrim _ _ _ _ _ => exact htrim

/-- The columns of a canonical table are those of its headers. -/
theorem Table.Canonical.layout {table : Table} (h : table.Canonical) :
    buildColumnLayout table.headers = table.headers.map converterColumn := by
  have hcolumns : table.headers.map directColumn = table.headers.map converterColumn :=
    List.map_congr_left fun header hheader ↦ (h.headers header hheader).column
  cases hheaders : table.headers with
  | nil => rfl
  | cons header headers =>
    have hhead : header ∈ table.headers := by
      rw [hheaders]
      exact List.mem_cons_self
    -- the first column is given no other type
    have hkept : ((header :: headers).map directColumn).all (·.type ≠ .ruleName) = false ∨
        trimAscii header ≠ [] := by
      rcases h.named with hname | hfirst
      · refine .inl (Bool.eq_false_iff.mpr fun hall ↦ ?_)
        rw [hheaders] at hname
        have hnone := List.all_eq_true.mp hall _ (List.mem_map_of_mem hname)
        cases hnone
      · refine .inr fun hblank ↦ hfirst ?_
        rw [(h.headers header hhead).trim] at hblank
        rw [hheaders, hblank]
        rfl
    have hif : ¬ ((((header :: headers).map directColumn).all (·.type ≠ .ruleName) &&
        decide (trimAscii header = [])) = true) := by
      rw [Bool.and_eq_true, decide_eq_true_eq]
      rintro ⟨hall, hblank⟩
      rcases hkept with hname | hne
      · exact Bool.false_ne_true (hname.symm.trans hall)
      · exact hne hblank
    rw [hheaders] at hcolumns
    rw [← hcolumns]
    exact if_neg hif

theorem getEffectiveCell_eq (hcells : ∀ cell ∈ row, trimAscii cell = cell) (column : Option ℕ) :
    getEffectiveCell row column = converterCell row column [[], ['*']] := by
  rw [getEffectiveCell, converterCell]
  cases hcell : column.bind (row[·]?) with
  | none => rfl
  | some cell =>
    obtain ⟨i, -, hi⟩ := Option.bind_eq_some_iff.mp hcell
    simp only [hcells cell (List.mem_of_getElem? hi), List.mem_cons, List.not_mem_nil, or_false]

/-- A name that is no star is read alike. -/
theorem converterCell_name {column : Option ℕ} (h : column.bind (row[·]?) ≠ some ['*']) :
    converterCell row column [[], ['*']] = converterCell row column [[]] := by
  rw [converterCell, converterCell]
  cases hcell : column.bind (row[·]?) with
  | none => rfl
  | some cell =>
    have hstar : cell ≠ ['*'] := fun heq ↦ h (hcell.trans (congrArg some heq))
    simp only [List.mem_cons, List.not_mem_nil, or_false, hstar]

theorem directTemplates_eq (hcells : ∀ cell ∈ row, trimAscii cell = cell) (type : ColumnType) :
    directTemplates type columns row = converterTemplates type columns row := by
  refine List.filterMap_congr fun cell hcell ↦ ?_
  rw [hcells cell.1 (List.of_mem_zip hcell).1]

/-- Both paths read a row of a canonical table alike. -/
theorem Table.Canonical.texts {table : Table} (h : table.Canonical) (hrow : row ∈ table.data) :
    directTexts (buildColumnLayout table.headers) row =
      converterTexts (table.headers.map converterColumn) row := by
  have hcells := h.cells row hrow
  rw [h.layout, directTexts, converterTexts, getEffectiveCell_eq hcells, getEffectiveCell_eq hcells,
    getEffectiveCell_eq hcells, directTemplates_eq hcells, directTemplates_eq hcells,
    converterCell_name (h.names row hrow)]

/-- **The paths of a canonical table agree** on what its rows say. The table is compiled to rules
exactly when each of its rows is, one rule for a row, in their order. If it is not, some row is not,
and the text for the parser has for every row, those before it too, the rule of the same reading. -/
theorem Table.compile_canonical (stod : List Char → Option Double) {table : Table}
    (h : table.Canonical) :
    (∀ row ∈ table.data, directTexts (buildColumnLayout table.headers) row =
      converterTexts (table.headers.map converterColumn) row) ∧
    (∀ rules, table.compile stod = .direct rules ↔
      List.Forall₂ (fun r rule ↦
        (directTexts (buildColumnLayout table.headers) r.1).compile stod r.2 = .ok rule)
        (numberedRows 0 table.data) rules) ∧
    ∀ reason text, table.compile stod = .parserPath reason text →
      (∃ r ∈ numberedRows 0 table.data,
        (directTexts (buildColumnLayout table.headers) r.1).compile stod r.2 = .error reason) ∧
      text = '\n' :: ((numberedRows 0 table.data).map fun r ↦
        (directTexts (buildColumnLayout table.headers) r.1).drl r.2).flatten := by
  refine ⟨fun row hrow ↦ h.texts hrow, ?_, ?_⟩
  · intro rules
    rw [← compileRows_ok_iff, Table.compile]
    cases hrows : compileRows stod (buildColumnLayout table.headers) 0 table.data with
    | error reason =>
      constructor <;> intro hcompile <;> cases hcompile
    | ok rules' =>
      constructor <;> intro hcompile <;> cases hcompile <;> rfl
  · intro reason text hcompile
    rw [Table.compile] at hcompile
    cases hrows : compileRows stod (buildColumnLayout table.headers) 0 table.data with
    | ok rules =>
      rw [hrows] at hcompile
      cases hcompile
    | error reason' =>
      rw [hrows] at hcompile
      obtain ⟨rfl, rfl⟩ := Compiled.parserPath.inj hcompile
      obtain ⟨r, hr, hreason⟩ := exists_of_compileRows_error hrows
      refine ⟨⟨r, hr, hreason⟩, ?_⟩
      have hdata : table.data ≠ [] := by
        intro hnil
        rw [hnil] at hr
        cases hr
      rw [Table.generateDrl, if_neg hdata, writeRows_eq]
      refine congrArg (fun texts ↦ '\n' :: List.flatten texts) (List.map_congr_left fun r hr ↦ ?_)
      rw [h.texts (mem_of_mem_numberedRows hr)]

/-- A table whose third row has no number for its salience. -/
def discounts : Table :=
  { headers := ["Rule Name".toList, "Salience".toList,
      "CONDITION: ".toList ++ "$c: Customer($1)".toList,
      "ACTION: ".toList ++ "insert(Discount(percent: $1))".toList]
    data :=
      [["standard".toList, "10".toList, "*".toList, "5".toList],
        [],
        ["gold".toList, "high".toList, "balance > 100".toList, "10".toList]] }

theorem discounts_canonical : discounts.Canonical where
  headers := by
    intro header hheader
    simp only [discounts, List.mem_cons, List.not_mem_nil, or_false] at hheader
    rcases hheader with rfl | rfl | rfl | rfl
    · exact .ruleName
    · exact .salience
    · exact .condition ⟨⟨'$', "c: Customer($1)".toList, rfl, rfl⟩,
        ⟨"$c: Customer($1".toList, ')', rfl, rfl⟩⟩
    · exact .action ⟨⟨'i', "nsert(Discount(percent: $1))".toList, rfl, rfl⟩,
        ⟨"insert(Discount(percent: $1)".toList, ')', rfl, rfl⟩⟩
  named := .inl List.mem_cons_self
  cells := by decide
  names := by decide

/-- The row that was compiled before is in the text too. -/
theorem Table.compile_canonical_discounts :
    ∃ text, discounts.compile (fun _ ↦ none) = .parserPath .salienceParse text ∧
      text = '\n' :: ((numberedRows 0 discounts.data).map fun r ↦
        (directTexts (buildColumnLayout discounts.headers) r.1).drl r.2).flatten :=
  ⟨_, rfl, ((Table.compile_canonical (fun _ ↦ none) discounts_canonical).2.2 _ _ rfl).2⟩

end Canonical

end DecisionTable

end RulesForge
