import RulesForge.Engine.ArithmeticEvaluation
import RulesForge.Parser.SemanticAnalyzer

/-!
# Literals on the right of constraints

What becomes of a literal that the lexer accepts (`parser/rfl_lexer.re`) on the right of a
comparison, in `has_flag` or in a list: the value its token is given (`primary_expr_val`), where it
is put (`set_rhs_value`), and what the analysis makes of it.

Texts and variables come to `set_rhs_value` as the same kind of value, and are told apart by their
first letter. A literal is **kept** when it is an integer in the range of `int64`, a text without a
backslash that does not begin with a `$`, or a truth value.
-/

namespace RulesForge

/-! ### Tokens -/

/-- `([^q\x00\\] | [\\] .)*`, for a quote `q`. -/
def isStringBody (quote : Char) : List Char → Bool
  | [] => true
  | '\\' :: c :: body => c ≠ '\n' && isStringBody quote body
  | c :: body => c ≠ '\\' && c ≠ quote && c.toNat ≠ 0 && isStringBody quote body

/-- A text in quotes. -/
structure StringToken where
  quote : Char
  body : List Char
  isQuote : quote = '"' ∨ quote = '\''
  isBody : isStringBody quote body = true

/-- The literals the lexer accepts: `-?[0-9]+`, texts in quotes, `true` and `false`. -/
inductive LiteralToken where
  | integer (negative : Bool) (digits : List Char) (ne_nil : digits ≠ [])
      (isDigit : digits.all Char.isDigit = true)
  | string (token : StringToken)
  | bool (b : Bool)

/-- What a letter after a backslash stands for. -/
def unescapeChar : Char → Char
  | 'n' => '\n'
  | 't' => '\t'
  | 'r' => '\r'
  | c => c

/-- The text that the letters between two quotes denote, as `scan_string` of actions reads them
(`src/rhs_parser.cpp`). -/
def unescape : List Char → List Char
  | '\\' :: c :: body => unescapeChar c :: unescape body
  | c :: body => c :: unescape body
  | [] => []

namespace LiteralToken

/-- The text of a token. -/
def text : LiteralToken → List Char
  | integer negative digits _ _ => if negative then '-' :: digits else digits
  | string token => token.quote :: token.body ++ [token.quote]
  | bool b => if b then "true".toList else "false".toList

/-- The value that a token denotes. -/
def denoted : LiteralToken → ConstraintValue
  | integer negative digits _ _ => .int64 (signedValue negative digits)
  | string token => .string (String.ofList (unescape token.body))
  | bool b => .bool b

end LiteralToken

/-! ### Parsing -/

/-- `parse_int`: an integer that is out of range is 0. -/
def parseInt (text : List Char) : ℤ :=
  (stoll text).getD 0

/-- `strip_quotes`. -/
def stripQuotes (text : List Char) : List Char :=
  if 2 ≤ text.length ∧ (text.head? = some '"' ∨ text.head? = some '\'') then
    (text.drop 1).dropLast
  else text

/-- `primary_expr_val` of a literal. -/
def primaryExprVal : LiteralToken → ConstraintValue
  | .integer negative digits h h' =>
    .int64 (parseInt (LiteralToken.integer negative digits h h').text)
  | .string token => .string (String.ofList (stripQuotes (LiteralToken.string token).text))
  | .bool b => .bool b

/-- `set_rhs_value`: a text that begins with a `$` is an expression, a field of a variable or a
variable. -/
def setRhsValue (c : ParsedConstraint) (v : ConstraintValue) : ParsedConstraint :=
  match v with
  | .string s =>
    if s.toList.head? = some '$' then
      if s.toList.any fun d ↦ d = '+' ∨ d = '-' ∨ d = '*' ∨ d = '/' then
        { c with rightArithExpr := some s }
      else if '.' ∈ s.toList then
        { c with
          rightBoundField := some (String.ofList (s.toList.takeWhile (· ≠ '.')),
            String.ofList (s.toList.dropWhile (· ≠ '.')).tail) }
      else { c with rightBoundField := some (s, "this") }
    else { c with rightLiteral := some v }
  | v => { c with rightLiteral := some v }

/-- The constraint items with literals: a comparison, with an inline variable for its field or
without, `has_flag`, and `in` or `not in`. -/
inductive LiteralItem where
  | comparison (fieldBinding : Option String) (field : String) (op : CompareOp)
      (token : LiteralToken)
  | hasFlag (field : String) (token : LiteralToken)
  | inList (negated : Bool) (field : String) (tokens : List LiteralToken)

/-- The constraint of an item. -/
def LiteralItem.constraint : LiteralItem → ParsedConstraint
  | comparison fieldBinding field op token =>
    setRhsValue { fieldBinding := fieldBinding, leftField := field, op := op }
      (primaryExprVal token)
  | hasFlag field token => setRhsValue { leftField := field, op := .hasFlag } (primaryExprVal token)
  | inList negated field tokens =>
    { leftField := field
      op := if negated then .notIn else .in
      rightValueList := some (tokens.map primaryExprVal) }

/-! ### What a token is given -/

/-- The value of the token is the one it denotes: an integer in range, or a text without
backslashes. -/
def LiteralToken.IsExact : LiteralToken → Prop
  | integer negative digits _ _ => fitsInt64 (signedValue negative digits) = true
  | string token => '\\' ∉ token.body
  | bool _ => True

/-- The token is a text that begins with a `$`. -/
def LiteralToken.BeginsVariable : LiteralToken → Prop
  | string token => token.body.head? = some '$'
  | _ => False

section Values

variable {negative : Bool} {digits body : List Char}

/-- The digits at the front of a text, after a sign or none. -/
def readDigits (negative : Bool) (text : List Char) : Option ℤ :=
  if text.takeWhile Char.isDigit = [] ∨
      signedValue negative (text.takeWhile Char.isDigit) < -2 ^ 63 ∨
      2 ^ 63 ≤ signedValue negative (text.takeWhile Char.isDigit) then none
  else some (signedValue negative (text.takeWhile Char.isDigit))

theorem stoll_minus (text : List Char) : stoll ('-' :: text) = readDigits true text := rfl

theorem stoll_cons {c : Char} (hc : c.isDigit = true) (text : List Char) :
    stoll (c :: text) = readDigits false (c :: text) := by
  have hsigns : c ≠ '-' ∧ c ≠ '+' := by
    refine ⟨?_, ?_⟩ <;> rintro rfl <;> exact absurd hc (by decide)
  have hdrop : (c :: text).dropWhile isSpace = c :: text := by
    rw [List.dropWhile_cons_of_neg]
    rw [(isDigit_plain hc).2.1]
    exact Bool.false_ne_true
  unfold stoll
  simp only [hdrop]
  split
  · next heq => exact absurd (List.cons.inj heq).1 hsigns.1
  · next heq => exact absurd (List.cons.inj heq).1 hsigns.2
  · rfl

/-- The digits of a token are read to their end. -/
theorem stoll_text (hne : digits ≠ []) (hdigits : digits.all Char.isDigit = true) :
    stoll (if negative then '-' :: digits else digits) =
      if fitsInt64 (signedValue negative digits) then some (signedValue negative digits)
      else none := by
  have hread : stoll (if negative then '-' :: digits else digits) = readDigits negative digits := by
    cases negative with
    | true => exact stoll_minus digits
    | false =>
      obtain ⟨c, digits, rfl⟩ := List.exists_cons_of_ne_nil hne
      exact stoll_cons (List.all_eq_true.mp hdigits c List.mem_cons_self) digits
  have hrange : (digits = [] ∨ signedValue negative digits < -2 ^ 63 ∨
      2 ^ 63 ≤ signedValue negative digits) ↔
      ¬ fitsInt64 (signedValue negative digits) = true := by
    rw [or_iff_right hne, fitsInt64, decide_eq_true_eq]
    omega
  rw [hread, readDigits, List.takeWhile_eq_self_iff.mpr (List.all_eq_true.mp hdigits),
    if_congr hrange rfl rfl, ite_not]

theorem parseInt_eq_iff (hne : digits ≠ []) (hdigits : digits.all Char.isDigit = true) :
    parseInt (if negative then '-' :: digits else digits) = signedValue negative digits ↔
      fitsInt64 (signedValue negative digits) = true := by
  rw [parseInt, stoll_text hne hdigits]
  cases hfits : fitsInt64 (signedValue negative digits) with
  | true => simp
  | false =>
    -- 0 is in range, so it is not the value
    refine iff_of_false (fun hzero ↦ ?_) Bool.false_ne_true
    have hzero : signedValue negative digits = 0 := hzero.symm
    rw [hzero] at hfits
    exact absurd hfits (by decide)

theorem stripQuotes_text {quote : Char} (hquote : quote = '"' ∨ quote = '\'')
    (body : List Char) : stripQuotes (quote :: body ++ [quote]) = body := by
  have hlength : 2 ≤ (quote :: body ++ [quote]).length := by simp
  rw [stripQuotes, if_pos ⟨hlength, by simpa using hquote⟩]
  simp

theorem length_unescape_le (body : List Char) : (unescape body).length ≤ body.length := by
  induction body using unescape.induct with
  | case1 c body ih =>
    rw [unescape, List.length_cons, List.length_cons, List.length_cons]
    omega
  | case2 c body hescape ih =>
    rw [unescape]
    · rw [List.length_cons, List.length_cons]
      omega
    · exact hescape
  | case3 => rfl

/-- A text without backslashes is its own, and no other is that ends no escape. -/
theorem unescape_eq_iff {quote : Char} (hbody : isStringBody quote body = true) :
    unescape body = body ↔ '\\' ∉ body := by
  induction body using unescape.induct with
  | case1 c body ih =>
    refine iff_of_false (fun heq ↦ ?_) fun hnot ↦ hnot List.mem_cons_self
    rw [unescape] at heq
    have hlength := congrArg List.length heq
    rw [List.length_cons, List.length_cons, List.length_cons] at hlength
    have hle := length_unescape_le body
    omega
  | case2 c body hescape ih =>
    have hc : c ≠ '\\' ∧ isStringBody quote body = true := by
      rw [isStringBody] at hbody
      · simp only [Bool.and_eq_true, decide_eq_true_eq] at hbody
        exact ⟨hbody.1.1.1, hbody.2⟩
      · exact hescape
    rw [unescape, List.cons.injEq, ih hc.2, List.mem_cons, not_or]
    · exact ⟨fun h ↦ ⟨Ne.symm hc.1, h.2⟩, fun h ↦ ⟨rfl, h.2⟩⟩
    · exact hescape
  | case3 => exact iff_of_true rfl List.not_mem_nil

/-- **The value of a token is the denoted one** exactly for the exact ones. -/
theorem primaryExprVal_eq_iff (token : LiteralToken) :
    primaryExprVal token = token.denoted ↔ token.IsExact := by
  cases token with
  | integer negative digits hne hdigits =>
    refine Iff.trans ?_ (parseInt_eq_iff hne hdigits)
    exact ⟨ConstraintValue.int64.inj, congrArg ConstraintValue.int64⟩
  | string token =>
    have hvalue : primaryExprVal (.string token) = .string (String.ofList token.body) :=
      congrArg (fun body ↦ ConstraintValue.string (String.ofList body))
        (stripQuotes_text token.isQuote token.body)
    rw [hvalue]
    refine Iff.trans ?_ (unescape_eq_iff token.isBody)
    constructor
    · intro heq
      have hlist := congrArg String.toList (ConstraintValue.string.inj heq)
      rw [String.toList_ofList, String.toList_ofList] at hlist
      exact hlist.symm
    · intro heq
      exact congrArg (fun body ↦ ConstraintValue.string (String.ofList body)) heq.symm
  | bool b => exact iff_of_true rfl trivial

end Values

/-! ### What an item keeps -/

/-- The right side of a constraint is a literal. -/
structure ParsedConstraint.HasLiteral (c : ParsedConstraint) (v : ConstraintValue) : Prop where
  rightLiteral : c.rightLiteral = some v
  rightBoundField : c.rightBoundField = none
  rightArithExpr : c.rightArithExpr = none
  rightValueList : c.rightValueList = none
  temporalConstraint : c.temporalConstraint = none

/-- The right side of a constraint is a list of literals. -/
structure ParsedConstraint.HasLiterals (c : ParsedConstraint) (values : List ConstraintValue) :
    Prop where
  rightValueList : c.rightValueList = some values
  rightLiteral : c.rightLiteral = none
  rightBoundField : c.rightBoundField = none
  rightArithExpr : c.rightArithExpr = none
  temporalConstraint : c.temporalConstraint = none

/-- The left side of a constraint, without a right one. -/
structure ParsedConstraint.IsOpen (c : ParsedConstraint) : Prop where
  rightLiteral : c.rightLiteral = none
  rightBoundField : c.rightBoundField = none
  rightArithExpr : c.rightArithExpr = none
  rightValueList : c.rightValueList = none
  temporalConstraint : c.temporalConstraint = none

namespace LiteralItem

/-- The left side of an item. -/
def left : LiteralItem → ParsedConstraint
  | comparison fieldBinding field op _ =>
    { fieldBinding := fieldBinding, leftField := field, op := op }
  | hasFlag field _ => { leftField := field, op := .hasFlag }
  | inList negated field _ => { leftField := field, op := if negated then .notIn else .in }

/-- The right side of a constraint is what the tokens of an item denote. -/
def IsRightOf (item : LiteralItem) (c : ParsedConstraint) : Prop :=
  match item with
  | comparison _ _ _ token | hasFlag _ token => c.HasLiteral token.denoted
  | inList _ _ tokens => c.HasLiterals (tokens.map LiteralToken.denoted)

variable (ctx : ConstraintContext) (symbols : SymbolTable)

/-- **An item is faithful**: its analysis reports an error, or the right side of the constraint is
what the tokens denote. -/
def IsFaithful (item : LiteralItem) : Prop :=
  (ctx.analyzeConstraint symbols item.constraint).2.errors ≠ [] ∨
    item.IsRightOf (ctx.analyzeConstraint symbols item.constraint).1

/-- The errors of the left side. -/
def leftErrors (item : LiteralItem) : List String :=
  (ctx.declareInline symbols item.left).errors ++ ctx.checkField item.left

end LiteralItem

/-- The token is a text that names a variable, without operators after it, and the variable is not
declared. -/
def LiteralToken.NamesUndeclared (ctx : ConstraintContext) (symbols : SymbolTable) :
    LiteralToken → Prop
  | string token => token.body.head? = some '$' ∧
      (token.body.any fun d ↦ d = '+' ∨ d = '-' ∨ d = '*' ∨ d = '/') = false ∧
      ctx.findSymbol symbols (String.ofList (token.body.takeWhile (· ≠ '.'))) = none
  | _ => False

/-- When an item is faithful, by its tokens. -/
def LiteralItem.KeepsLiterals (ctx : ConstraintContext) (symbols : SymbolTable)
    (item : LiteralItem) : Prop :=
  match item with
  | comparison _ _ _ token | hasFlag _ token =>
    ¬ token.BeginsVariable ∧ token.IsExact ∨
      token.NamesUndeclared ctx (ctx.declareInline symbols item.left).newSymbols
  | inList _ _ tokens => ∀ token ∈ tokens, token.IsExact

section Items

variable {ctx : ConstraintContext} {symbols : SymbolTable} {c : ParsedConstraint}
  {v : ConstraintValue} {body : List Char}

theorem setRhsValue_literal (h : ∀ s, v = .string s → s.toList.head? ≠ some '$') :
    setRhsValue c v = { c with rightLiteral := some v } := by
  unfold setRhsValue
  split
  · next s => rw [if_neg (h s rfl)]
  · rfl

theorem setRhsValue_expression (hvariable : body.head? = some '$')
    (hoperator : (body.any fun d ↦ d = '+' ∨ d = '-' ∨ d = '*' ∨ d = '/') = true) :
    setRhsValue c (.string (String.ofList body)) =
      { c with rightArithExpr := some (String.ofList body) } := by
  unfold setRhsValue
  simp only [String.toList_ofList, if_pos hvariable, if_pos hoperator]

theorem setRhsValue_variable (hvariable : body.head? = some '$')
    (hoperator : (body.any fun d ↦ d = '+' ∨ d = '-' ∨ d = '*' ∨ d = '/') = false) :
    ∃ field, setRhsValue c (.string (String.ofList body)) =
      { c with rightBoundField := some (String.ofList (body.takeWhile (· ≠ '.')), field) } := by
  unfold setRhsValue
  simp only [String.toList_ofList, if_pos hvariable, hoperator, Bool.false_eq_true, if_false]
  by_cases hdot : '.' ∈ body
  · exact ⟨_, if_pos hdot⟩
  · refine ⟨"this", ?_⟩
    have hself : body.takeWhile (· ≠ '.') = body := by
      refine List.takeWhile_eq_self_iff.mpr fun d hd ↦ decide_eq_true ?_
      rintro rfl
      exact hdot hd
    rw [if_neg hdot, hself]

/-- The left side of a constraint is analysed whatever stands on the right. -/
theorem analyzeConstraint_eq (c c' : ParsedConstraint) (hbinding : c'.fieldBinding = c.fieldBinding)
    (hfield : c'.leftField = c.leftField) :
    ctx.analyzeConstraint symbols c' =
      ((ctx.resolveRightSide (ctx.declareInline symbols c).newSymbols c').1,
        { newSymbols := (ctx.declareInline symbols c).newSymbols
          errors := (ctx.declareInline symbols c).errors ++ ctx.checkField c ++
            (ctx.resolveRightSide (ctx.declareInline symbols c).newSymbols c').2 }) := by
  have hdeclared : ctx.declareInline symbols c' = ctx.declareInline symbols c := by
    unfold ConstraintContext.declareInline
    rw [hbinding, hfield]
  have hchecked : ctx.checkField c' = ctx.checkField c := by
    unfold ConstraintContext.checkField
    rw [hfield]
  rw [ConstraintContext.analyzeConstraint, hdeclared, hchecked]

/-- A literal stays where it is put. -/
theorem resolveRightSide_literal (hopen : c.IsOpen)
    (h : ∀ s, v = .string s → s.toList.head? ≠ some '$') :
    ctx.resolveRightSide symbols { c with rightLiteral := some v } =
      ({ c with rightLiteral := some v }, []) := by
  unfold ConstraintContext.resolveRightSide
  simp only [hopen.rightBoundField]
  split
  · next heq => cases heq
  · next text _ heq => exact if_neg (h text (Option.some.inj heq))
  · rfl

theorem resolveRightSide_expression (hopen : c.IsOpen) (expression : String) :
    ctx.resolveRightSide symbols { c with rightArithExpr := some expression } =
      ({ c with rightArithExpr := some expression }, []) := by
  unfold ConstraintContext.resolveRightSide
  simp only [hopen.rightBoundField, hopen.rightLiteral]

/-- A variable stays one, or is an error. -/
theorem resolveRightSide_variable (name field : String) :
    (ctx.findSymbol symbols name = none →
      (ctx.resolveRightSide symbols { c with rightBoundField := some (name, field) }).2 ≠ []) ∧
    (ctx.findSymbol symbols name ≠ none →
      (ctx.resolveRightSide symbols { c with rightBoundField := some (name, field) }).2 = [] ∧
      (ctx.resolveRightSide symbols
        { c with rightBoundField := some (name, field) }).1.rightBoundField ≠ none) := by
  unfold ConstraintContext.resolveRightSide
  dsimp only
  cases ctx.findSymbol symbols name with
  | none => exact ⟨fun _ ↦ List.cons_ne_nil _ _, fun h ↦ absurd rfl h⟩
  | some info =>
    refine ⟨fun h ↦ (nomatch h), fun _ ↦ ?_⟩
    dsimp only
    cases info.sourceFieldOfBinding with
    | none => exact ⟨rfl, Option.some_ne_none _⟩
    | some source => exact ⟨rfl, Option.some_ne_none _⟩

/-- A token that is no variable is put and left as a literal. -/
theorem faithful_of_literal (hopen : c.IsOpen) {token : LiteralToken}
    (hvalue : ∀ s, primaryExprVal token = .string s → s.toList.head? ≠ some '$') :
    ((ctx.analyzeConstraint symbols (setRhsValue c (primaryExprVal token))).2.errors ≠ [] ∨
      (ctx.analyzeConstraint symbols (setRhsValue c (primaryExprVal token))).1.HasLiteral
        token.denoted) ↔
      (ctx.declareInline symbols c).errors ++ ctx.checkField c ≠ [] ∨ token.IsExact := by
  rw [setRhsValue_literal hvalue,
    analyzeConstraint_eq c { c with rightLiteral := some (primaryExprVal token) } rfl rfl,
    resolveRightSide_literal hopen hvalue, List.append_nil, ← primaryExprVal_eq_iff]
  refine or_congr_right ⟨fun h ↦ Option.some.inj h.rightLiteral, fun h ↦ ?_⟩
  exact ⟨congrArg some h, hopen.rightBoundField, hopen.rightArithExpr, hopen.rightValueList,
    hopen.temporalConstraint⟩

/-- **A single literal**: it is kept when it is exact and begins with no `$`, and else its item is
rejected, if at all, for a variable that is not declared. -/
theorem faithful_setRhsValue_iff (hopen : c.IsOpen) (token : LiteralToken) :
    ((ctx.analyzeConstraint symbols (setRhsValue c (primaryExprVal token))).2.errors ≠ [] ∨
      (ctx.analyzeConstraint symbols (setRhsValue c (primaryExprVal token))).1.HasLiteral
        token.denoted) ↔
      (ctx.declareInline symbols c).errors ++ ctx.checkField c ≠ [] ∨
        ¬ token.BeginsVariable ∧ token.IsExact ∨
        token.NamesUndeclared ctx (ctx.declareInline symbols c).newSymbols := by
  have hplain : ¬ token.BeginsVariable →
      ¬ token.NamesUndeclared ctx (ctx.declareInline symbols c).newSymbols →
      ((¬ token.BeginsVariable ∧ token.IsExact ∨
        token.NamesUndeclared ctx (ctx.declareInline symbols c).newSymbols) ↔ token.IsExact) :=
    fun hbegins hnames ↦ (or_iff_left hnames).trans (and_iff_right hbegins)
  cases token with
  | integer negative digits hne hdigits =>
    rw [hplain id id]
    exact faithful_of_literal hopen fun s h ↦ (nomatch h)
  | bool b =>
    rw [hplain id id]
    exact faithful_of_literal hopen fun s h ↦ (nomatch h)
  | string token =>
    have hvalue : primaryExprVal (.string token) = .string (String.ofList token.body) :=
      congrArg (fun body ↦ ConstraintValue.string (String.ofList body))
        (stripQuotes_text token.isQuote token.body)
    by_cases hvariable : token.body.head? = some '$'
    · have hbegins : ¬ (¬ (LiteralToken.string token).BeginsVariable ∧
          (LiteralToken.string token).IsExact) := fun h ↦ h.1 hvariable
      rw [hvalue, or_iff_right hbegins]
      cases hoperator : token.body.any fun d ↦ d = '+' ∨ d = '-' ∨ d = '*' ∨ d = '/' with
      | true =>
        rw [setRhsValue_expression hvariable hoperator,
          analyzeConstraint_eq c { c with rightArithExpr := some (String.ofList token.body) } rfl
            rfl,
          resolveRightSide_expression hopen, List.append_nil]
        refine or_congr_right (iff_of_false (fun h ↦ ?_) fun h ↦ ?_)
        · exact Option.some_ne_none _ h.rightArithExpr
        · exact Bool.noConfusion (hoperator.symm.trans h.2.1)
      | false =>
        obtain ⟨field, hset⟩ := @setRhsValue_variable c token.body hvariable hoperator
        obtain ⟨hundeclared, hdeclared⟩ := @resolveRightSide_variable ctx
          (ctx.declareInline symbols c).newSymbols c
          (String.ofList (token.body.takeWhile (· ≠ '.'))) field
        rw [hset, analyzeConstraint_eq c { c with
          rightBoundField := some (String.ofList (token.body.takeWhile (· ≠ '.')), field) } rfl rfl]
        by_cases hsymbol : ctx.findSymbol (ctx.declareInline symbols c).newSymbols
            (String.ofList (token.body.takeWhile (· ≠ '.'))) = none
        · refine iff_of_true (.inl fun hnil ↦ ?_) (.inr ⟨hvariable, hoperator, hsymbol⟩)
          exact hundeclared hsymbol (List.append_eq_nil_iff.mp hnil).2
        · obtain ⟨hnone, hbound⟩ := hdeclared hsymbol
          rw [hnone, List.append_nil]
          refine or_congr_right (iff_of_false (fun h ↦ ?_) fun h ↦ ?_)
          · exact hbound h.rightBoundField
          · exact hsymbol h.2.2
    · rw [hplain hvariable fun h ↦ hvariable h.1]
      refine faithful_of_literal hopen fun s h ↦ ?_
      rw [hvalue] at h
      obtain rfl := ConstraintValue.string.inj h
      rwa [String.toList_ofList]

/-- The literals of a list are kept as they are read. -/
theorem map_primaryExprVal_eq_iff (tokens : List LiteralToken) :
    tokens.map primaryExprVal = tokens.map LiteralToken.denoted ↔
      ∀ token ∈ tokens, token.IsExact := by
  rw [List.map_inj_left]
  exact forall₂_congr fun token _ ↦ primaryExprVal_eq_iff token

end Items

/-- **Literals of constraints.** In any context an item is faithful exactly when its left side is in
error, or each of its literals is an integer in the range of `int64`, a truth value or a text
without backslashes, where that of a comparison or of `has_flag` does not begin with a `$`; or it
names a variable that is not declared, which is reported. -/
theorem LiteralItem.isFaithful_iff (ctx : ConstraintContext) (symbols : SymbolTable)
    (item : LiteralItem) :
    item.IsFaithful ctx symbols ↔
      item.leftErrors ctx symbols ≠ [] ∨ item.KeepsLiterals ctx symbols := by
  cases item with
  | comparison fieldBinding field op token =>
    exact faithful_setRhsValue_iff ⟨rfl, rfl, rfl, rfl, rfl⟩ token
  | hasFlag field token => exact faithful_setRhsValue_iff ⟨rfl, rfl, rfl, rfl, rfl⟩ token
  | inList negated field tokens =>
    have hright : ∀ symbols : SymbolTable, ctx.resolveRightSide symbols
        (inList negated field tokens).constraint = ((inList negated field tokens).constraint, []) :=
      fun _ ↦ rfl
    rw [IsFaithful, analyzeConstraint_eq (inList negated field tokens).left
      (inList negated field tokens).constraint rfl rfl, hright, List.append_nil]
    refine or_congr_right ((Iff.trans ?_ (map_primaryExprVal_eq_iff tokens)))
    exact ⟨fun h ↦ Option.some.inj h.rightValueList, fun h ↦ ⟨congrArg some h, rfl, rfl, rfl, rfl⟩⟩

/-- The constraints of a pattern `Order(..)`, the first of a rule. -/
def orderContext : ConstraintContext where
  ruleName := "r"
  factType := "Order"
  factBinding := ""
  depth := 0

/-- `2^63`. -/
def tooLarge : LiteralToken :=
  .integer false "9223372036854775808".toList (by decide) (by decide)

/-- `"$5-10"`. -/
def priceRange : LiteralToken :=
  .string ⟨'"', "$5-10".toList, .inl rfl, by decide⟩

/-- **Literals that are lost**: of `amount == 9223372036854775808` the right side is 0, and of
`code == "$5-10"` it is an expression. -/
theorem lost_literals :
    ¬ (LiteralItem.comparison none "amount" .eq tooLarge).IsFaithful orderContext [] ∧
      ¬ (LiteralItem.comparison none "code" .eq priceRange).IsFaithful orderContext [] := by
  refine ⟨?_, ?_⟩
  · rintro (herrors | hliteral)
    · exact herrors rfl
    · have hvalue : some (ConstraintValue.int64 0) = some (.int64 9223372036854775808) :=
        hliteral.rightLiteral
      cases hvalue
  · rintro (herrors | hliteral)
    · exact herrors rfl
    · have hvalue : (none : Option ConstraintValue) = some (.string "$5-10") :=
        hliteral.rightLiteral
      cases hvalue

end RulesForge
