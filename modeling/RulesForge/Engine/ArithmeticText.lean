import RulesForge.Engine.TextEvaluator

/-!
# Arithmetic expressions and their texts

The arithmetic expressions of the grammars, and what the evaluators make of their texts. The three
productions (`arith_expr_str` of constraints, `accum_ref` of accumulates and
`RhsParser::parse_expression` of actions) accept sums of products of literals, variables and
parenthesised sums, and put the text together again with a space on each side of an operator. A
minus sign belongs to a literal; there is no other unary minus.

An expression is read **from the left** (`ArithExpr.value`). The evaluators split a text at its first
operator, and so read it from the right (`ArithExpr.regrouped`), but for a literal with a sign after a
`*`, whose sign they take for an operator.
-/

namespace RulesForge

/-! ### Expressions -/

/-- The token of an `int64` literal: a sign and digits. -/
structure IntLiteral where
  negative : Bool
  digits : List Char
  digits_ne_nil : digits ≠ []
  isDigit : digits.all Char.isDigit = true
  fits : fitsInt64 (signedValue negative digits) = true

namespace IntLiteral

def text (l : IntLiteral) : List Char :=
  if l.negative then '-' :: l.digits else l.digits

def value (l : IntLiteral) : ℤ := signedValue l.negative l.digits

end IntLiteral

/-- A letter of comparisons and of logical operators. -/
def isLogical (c : Char) : Bool :=
  c = '=' || c = '<' || c = '>' || c = '&' || c = '|'

/-- A letter of a variable and of the fields after it. -/
def isVariableLetter (c : Char) : Bool :=
  !isMark c && !isSpace c && !isOperator 0 c && !isOperator 1 c && !isLogical c

/-- A variable, with the fields after it. -/
structure ExprVariable where
  letters : List Char
  isLetter : letters.all isVariableLetter = true

/-- The text of a variable. -/
def ExprVariable.text (v : ExprVariable) : List Char := '$' :: v.letters

inductive AddOp where
  | add
  | sub
  deriving DecidableEq

namespace AddOp

def sign : AddOp → Char
  | add => '+'
  | sub => '-'

def apply : AddOp → ℤ → ℤ → ℤ
  | add, i, j => i + j
  | sub, i, j => i - j

end AddOp

mutual

inductive ArithFactor where
  | literal (l : IntLiteral)
  | var (v : ExprVariable)
  | paren (e : ArithExpr)

/-- A product, as the list of its factors. -/
inductive ArithProduct where
  | single (f : ArithFactor)
  | times (f : ArithFactor) (rest : ArithProduct)

/-- A sum, as the list of its terms with the operators between them. -/
inductive ArithExpr where
  | single (p : ArithProduct)
  | step (p : ArithProduct) (op : AddOp) (rest : ArithExpr)

end

/-! ### Texts -/

mutual

def ArithFactor.text : ArithFactor → List Char
  | .literal l => l.text
  | .var v => v.text
  | .paren e => '(' :: e.text ++ [')']

def ArithProduct.text : ArithProduct → List Char
  | .single f => f.text
  | .times f rest => f.text ++ ' ' :: '*' :: ' ' :: rest.text

def ArithExpr.text : ArithExpr → List Char
  | .single p => p.text
  | .step p op rest => p.text ++ ' ' :: op.sign :: ' ' :: rest.text

end

/-! ### Values -/

section Values

variable (env : ExprVariable → ℤ)

mutual

def ArithFactor.value : ArithFactor → ℤ
  | .literal l => l.value
  | .var v => env v
  | .paren e => e.valueFrom 0 .add

/-- The value of a product that is multiplied to what is before it. -/
def ArithProduct.valueFrom (i : ℤ) : ArithProduct → ℤ
  | .single f => i * f.value
  | .times f rest => rest.valueFrom (i * f.value)

/-- The value of a sum that an operator applies to what is before it. -/
def ArithExpr.valueFrom (i : ℤ) (op : AddOp) : ArithExpr → ℤ
  | .single p => op.apply i (p.valueFrom 1)
  | .step p op' rest => rest.valueFrom (op.apply i (p.valueFrom 1)) op'

end

def ArithProduct.value (p : ArithProduct) : ℤ := p.valueFrom env 1

/-- **The value of an expression**, operators of one precedence being read from the left. -/
def ArithExpr.value (e : ArithExpr) : ℤ := e.valueFrom env 0 .add

/-- An integer that is exact as a double, as every smaller one is. -/
def IsSmall (i : ℤ) : Prop := i.natAbs ≤ 2 ^ 53

mutual

/-- The values of the expression and of the parts that are evaluated on the way are small. -/
def ArithFactor.InRange : ArithFactor → Prop
  | .literal l => IsSmall l.value
  | .var v => IsSmall (env v)
  | .paren e => e.InRangeFrom 0 .add

def ArithProduct.InRangeFrom (i : ℤ) : ArithProduct → Prop
  | .single f => f.InRange ∧ IsSmall (i * f.value env)
  | .times f rest =>
    f.InRange ∧ IsSmall (i * f.value env) ∧ rest.InRangeFrom (i * f.value env)

def ArithExpr.InRangeFrom (i : ℤ) (op : AddOp) : ArithExpr → Prop
  | .single p => p.InRangeFrom 1 ∧ IsSmall (op.apply i (p.value env))
  | .step p op' rest =>
    p.InRangeFrom 1 ∧ IsSmall (op.apply i (p.value env)) ∧
      rest.InRangeFrom (op.apply i (p.value env)) op'

end

def ArithExpr.InRange (e : ArithExpr) : Prop := e.InRangeFrom env 0 .add

end Values

mutual

/-- The variables of an expression. -/
def ArithFactor.variables : ArithFactor → List ExprVariable
  | .literal _ => []
  | .var v => [v]
  | .paren e => e.variables

def ArithProduct.variables : ArithProduct → List ExprVariable
  | .single f => f.variables
  | .times f rest => f.variables ++ rest.variables

def ArithExpr.variables : ArithExpr → List ExprVariable
  | .single p => p.variables
  | .step p _ rest => p.variables ++ rest.variables

end

/-! ### Expressions read from the right -/

/-- A literal with a sign. -/
def ArithFactor.IsSigned : ArithFactor → Bool
  | .literal l => l.negative
  | _ => false

def ArithProduct.first : ArithProduct → ArithFactor
  | .single f => f
  | .times f _ => f

section Regrouped

variable (library : NumberLibrary) (env : ExprVariable → ℤ)

/-- An operation on two integers, which is one of doubles. -/
def NumberLibrary.applySign (library : NumberLibrary) (sign : Char) (i j : ℤ) : ℤ :=
  library.toInt64 (RulesForge.applySign sign (.ofInt i) (.ofInt j))

mutual

def ArithFactor.regrouped : ArithFactor → Option ℤ
  | .literal l => some l.value
  | .var v => some (env v)
  | .paren e => e.regrouped

/-- The value of a product that is read from the right, if no later factor has a sign. -/
def ArithProduct.regrouped : ArithProduct → Option ℤ
  | .single f => f.regrouped
  | .times f rest =>
    if rest.first.IsSigned then none
    else do
      let i ← f.regrouped
      let j ← rest.regrouped
      some (library.applySign '*' i j)

/-- The value of a sum that is read from the right: `a - b - c` as `a - (b - c)`. -/
def ArithExpr.regrouped : ArithExpr → Option ℤ
  | .single p => p.regrouped
  | .step p op rest => do
    let i ← p.regrouped
    let j ← rest.regrouped
    some (library.applySign op.sign i j)

end

end Regrouped

end RulesForge
