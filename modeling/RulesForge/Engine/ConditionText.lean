import RulesForge.Engine.ArithmeticValue

/-!
# Conditions of actions

The conditions of `if` and `while` on the right-hand side, and what
`RhsExecutor::evaluate_simple_rhs_condition` (`src/engine/rhs_executor.cpp`) makes of their texts.
`RhsParser` accepts comparisons that are put together by `&&` and `||` and parentheses, and keeps
the text. The evaluator splits the text at the **first comparison operator** outside of strings,
wherever it stands, and evaluates both sides as values.
-/

namespace RulesForge

/-! ### The evaluator -/

/-- The comparison operator that a text begins with, and the text after it. -/
def compareToken : List Char → Option (CompareOp × List Char)
  | '=' :: '=' :: text => some (.eq, text)
  | '!' :: '=' :: text => some (.ne, text)
  | '>' :: '=' :: text => some (.ge, text)
  | '<' :: '=' :: text => some (.le, text)
  | '>' :: text => some (.gt, text)
  | '<' :: text => some (.lt, text)
  | _ => none

/-- `find_top_level_compare`, which skips strings but not parentheses: the text before the
operator, the operator and the text after it. -/
def findTopLevelCompare : Scan → List Char → List Char →
    Option (List Char × CompareOp × List Char)
  | _, _, [] => none
  | s, before, c :: text =>
    if s.quote = none ∧ c ≠ '"' ∧ c ≠ '\'' then
      match compareToken (c :: text) with
      | some (op, after) => some (before, op, after)
      | none => findTopLevelCompare (s.next c) (before ++ [c]) text
    else findTopLevelCompare (s.next c) (before ++ [c]) text

def isTruthy : ConstraintValue → Bool
  | .bool b => b
  | .double d => decide (d ≠ .finite 0)
  | .int64 i => decide (i ≠ 0)
  | .uint64 n => decide (n ≠ 0)
  | .duration milliseconds => decide (milliseconds ≠ 0)
  | .string s => decide (s ≠ "" ∧ s ≠ "false" ∧ s ≠ "0")
  | .nil => false
  | _ => true

def evaluateSimpleRhsCondition (library : NumberLibrary)
    (resolve : List Char → Option ConstraintValue) (expression : List Char) : Option Bool :=
  match findTopLevelCompare {} [] expression with
  | none => (evaluateSimpleRhsValue library resolve expression).map isTruthy
  | some (lhs, op, rhs) => do
    let a ← evaluateSimpleRhsValue library resolve lhs
    let b ← evaluateSimpleRhsValue library resolve rhs
    some (compareScalarValues op a b)

/-! ### Conditions -/

/-- The side of a comparison of texts: a string, or a variable, or one of these in parentheses. -/
inductive TextOperand where
  | literal (body : List Char)
  | var (v : ExprVariable)
  | paren (t : TextOperand)

/-- A comparison of numbers or of texts. -/
inductive Comparison where
  | numbers (lhs : ArithExpr) (op : {op : CompareOp // op.IsComparison}) (rhs : ArithExpr)
  | texts (lhs : TextOperand) (op : {op : CompareOp // op.IsComparison}) (rhs : TextOperand)

mutual

/-- A comparison, a number, which holds unless it is zero, or a condition in parentheses. -/
inductive CondTerm where
  | comparison (c : Comparison)
  | number (e : ArithExpr)
  | paren (c : CondOr)

inductive CondAnd where
  | single (t : CondTerm)
  | and (t : CondTerm) (rest : CondAnd)

inductive CondOr where
  | single (c : CondAnd)
  | or (c : CondAnd) (rest : CondOr)

end

/-! ### Texts -/

def compareSymbol : CompareOp → List Char
  | .eq => ['=', '=']
  | .ne => ['!', '=']
  | .ge => ['>', '=']
  | .le => ['<', '=']
  | .gt => ['>']
  | .lt => ['<']
  | _ => []

/-- The parser puts the letters that a string stands for between quotes again, without escapes. -/
def TextOperand.text : TextOperand → List Char
  | .literal body => '"' :: body ++ ['"']
  | .var v => v.text
  | .paren t => '(' :: t.text ++ [')']

namespace Comparison

def lhsText : Comparison → List Char
  | numbers lhs _ _ => lhs.text
  | texts lhs _ _ => lhs.text

def rhsText : Comparison → List Char
  | numbers _ _ rhs => rhs.text
  | texts _ _ rhs => rhs.text

def op : Comparison → {op : CompareOp // op.IsComparison}
  | numbers _ op _ => op
  | texts _ op _ => op

def text (c : Comparison) : List Char :=
  c.lhsText ++ ' ' :: (compareSymbol c.op ++ ' ' :: c.rhsText)

end Comparison

mutual

def CondTerm.text : CondTerm → List Char
  | .comparison c => c.text
  | .number e => e.text
  | .paren c => '(' :: c.text ++ [')']

def CondAnd.text : CondAnd → List Char
  | .single t => t.text
  | .and t rest => t.text ++ ' ' :: '&' :: '&' :: ' ' :: rest.text

def CondOr.text : CondOr → List Char
  | .single c => c.text
  | .or c rest => c.text ++ ' ' :: '|' :: '|' :: ' ' :: rest.text

end

/-! ### Values -/

section Values

variable (numbers : ExprVariable → ℤ) (texts : ExprVariable → String)

def TextOperand.value : TextOperand → String
  | .literal body => String.ofList body
  | .var v => texts v
  | .paren t => t.value

def Comparison.holds : Comparison → Bool
  | .numbers lhs op rhs =>
    evaluateOrderedCompare op (compare (lhs.value numbers) (rhs.value numbers))
  | .texts lhs op rhs => evaluateOrderedCompare op (compare (lhs.value texts) (rhs.value texts))

mutual

def CondTerm.holds : CondTerm → Bool
  | .comparison c => c.holds numbers texts
  | .number e => decide (e.value numbers ≠ 0)
  | .paren c => c.holds

def CondAnd.holds : CondAnd → Bool
  | .single t => t.holds
  | .and t rest => t.holds && rest.holds

/-- **Whether a condition holds.** -/
def CondOr.holds : CondOr → Bool
  | .single c => c.holds
  | .or c rest => c.holds || rest.holds

end

end Values

/-! ### Variables and strings -/

def Comparison.numberVariables : Comparison → List ExprVariable
  | .numbers lhs _ rhs => lhs.variables ++ rhs.variables
  | .texts _ _ _ => []

def TextOperand.variables : TextOperand → List ExprVariable
  | .literal _ => []
  | .var v => [v]
  | .paren t => t.variables

def Comparison.textVariables : Comparison → List ExprVariable
  | .numbers _ _ _ => []
  | .texts lhs _ rhs => lhs.variables ++ rhs.variables

mutual

def CondTerm.comparisons : CondTerm → List Comparison
  | .comparison c => [c]
  | .number _ => []
  | .paren c => c.comparisons

def CondAnd.comparisons : CondAnd → List Comparison
  | .single t => t.comparisons
  | .and t rest => t.comparisons ++ rest.comparisons

/-- The comparisons of a condition. -/
def CondOr.comparisons : CondOr → List Comparison
  | .single c => c.comparisons
  | .or c rest => c.comparisons ++ rest.comparisons

end

mutual

def CondTerm.numberTerms : CondTerm → List ArithExpr
  | .comparison _ => []
  | .number e => [e]
  | .paren c => c.numberTerms

def CondAnd.numberTerms : CondAnd → List ArithExpr
  | .single t => t.numberTerms
  | .and t rest => t.numberTerms ++ rest.numberTerms

/-- The numbers that are conditions themselves. -/
def CondOr.numberTerms : CondOr → List ArithExpr
  | .single c => c.numberTerms
  | .or c rest => c.numberTerms ++ rest.numberTerms

end

/-! ### Conditions that are read -/

mutual

/-- The comparison or the number that a condition is, up to parentheses around a number. -/
def CondTerm.reading : CondTerm → Option (Comparison ⊕ ArithExpr)
  | .comparison c => some (.inl c)
  | .number e => some (.inr e)
  | .paren c =>
    match c.reading with
    | some (.inr e) => some (.inr (.single (.single (.paren e))))
    | _ => none

def CondAnd.reading : CondAnd → Option (Comparison ⊕ ArithExpr)
  | .single t => t.reading
  | .and _ _ => none

def CondOr.reading : CondOr → Option (Comparison ⊕ ArithExpr)
  | .single c => c.reading
  | .or _ _ => none

end

/-- A string without quotes and backslashes, or a variable. -/
def TextOperand.IsClean : TextOperand → Prop
  | .literal body => ∀ c ∈ body, c ≠ '"' ∧ c ≠ '\\'
  | .var _ => True
  | .paren t => t.IsClean

def TextOperand.IsUnquoted : TextOperand → Prop
  | .literal _ => False
  | .var _ => True
  | .paren t => t.IsUnquoted

/-- No string stands in the text of a comparison. -/
def Comparison.IsUnquoted : Comparison → Prop
  | .numbers _ _ _ => True
  | .texts lhs _ rhs => lhs.IsUnquoted ∧ rhs.IsUnquoted

section Agrees

variable (library : NumberLibrary) (numbers : ExprVariable → ℤ)

/-- What a comparison or a number is read as, has its value. -/
def readingAgrees : Comparison ⊕ ArithExpr → Prop
  | .inl (.numbers lhs op rhs) =>
    (do
      let i ← lhs.regrouped library numbers
      let j ← rhs.regrouped library numbers
      some (compareScalarValues op (.int64 i) (.int64 j))) =
        some (evaluateOrderedCompare op (compare (lhs.value numbers) (rhs.value numbers)))
  | .inl (.texts lhs _ rhs) => lhs.IsClean ∧ rhs.IsClean
  | .inr e =>
    (e.regrouped library numbers).map (fun i ↦ decide (i ≠ 0)) =
      some (decide (e.value numbers ≠ 0))

/-- A condition is one comparison that stands in no parentheses, or one number, and agrees with
how it is read. -/
def CondOr.Agrees (c : CondOr) : Prop :=
  ∃ r, c.reading = some r ∧ readingAgrees library numbers r

end Agrees

section Reading

variable (numbers : ExprVariable → ℤ) (texts : ExprVariable → String)

def readingText : Comparison ⊕ ArithExpr → List Char
  | .inl c => c.text
  | .inr e => e.text

def readingHolds : Comparison ⊕ ArithExpr → Bool
  | .inl c => c.holds numbers texts
  | .inr e => decide (e.value numbers ≠ 0)

/-- A reading has the text, the value and the parts of the condition. -/
structure IsReading (text : List Char) (holds : Bool) (comparisons : List Comparison)
    (numberTerms : List ArithExpr) (r : Comparison ⊕ ArithExpr) : Prop where
  text_eq : readingText r = text
  holds_eq : readingHolds numbers texts r = holds
  comparison : ∀ c, r = .inl c → c ∈ comparisons
  number : ∀ e, r = .inr e → ∀ v ∈ e.variables, ∃ e' ∈ numberTerms, v ∈ e'.variables

mutual

theorem CondTerm.isReading : ∀ (t : CondTerm) {r : Comparison ⊕ ArithExpr},
    t.reading = some r →
      IsReading numbers texts t.text (t.holds numbers texts) t.comparisons t.numberTerms r
  | .comparison c, r, h => by
    cases h
    refine ⟨rfl, rfl, fun c' hc' ↦ ?_, nofun⟩
    cases hc'
    exact List.mem_singleton_self c
  | .number e, r, h => by
    cases h
    refine ⟨rfl, rfl, nofun, fun e' he' v hv ↦ ?_⟩
    cases he'
    exact ⟨e, List.mem_singleton_self e, hv⟩
  | .paren c, r, h => by
    cases hc : c.reading with
    | none =>
      rw [CondTerm.reading, hc] at h
      cases h
    | some r' =>
      obtain ⟨htext, hholds, -, hnumber⟩ := c.isReading hc
      cases r' with
      | inl _ =>
        rw [CondTerm.reading, hc] at h
        cases h
      | inr e =>
        rw [CondTerm.reading, hc] at h
        cases h
        have htext : e.text = c.text := htext
        refine ⟨?_, ?_, nofun, fun e' he' v hv ↦ ?_⟩
        · show '(' :: e.text ++ [')'] = '(' :: c.text ++ [')']
          rw [htext]
        · show decide (0 + 1 * e.value numbers ≠ 0) = c.holds numbers texts
          rw [Int.one_mul, Int.zero_add]
          exact hholds
        · cases he'
          exact hnumber e rfl v hv

theorem CondAnd.isReading : ∀ (c : CondAnd) {r : Comparison ⊕ ArithExpr},
    c.reading = some r →
      IsReading numbers texts c.text (c.holds numbers texts) c.comparisons c.numberTerms r
  | .single t, _, h => t.isReading h
  | .and _ _, _, h => by cases h

theorem CondOr.isReading : ∀ (c : CondOr) {r : Comparison ⊕ ArithExpr},
    c.reading = some r →
      IsReading numbers texts c.text (c.holds numbers texts) c.comparisons c.numberTerms r
  | .single c, _, h => c.isReading h
  | .or _ _, _, h => by cases h

end

end Reading

end RulesForge
