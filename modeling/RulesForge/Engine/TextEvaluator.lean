import RulesForge.Engine.RhsComparison
import RulesForge.Library.TextScan

/-!
# Expressions evaluated from their text

The parser keeps the text of an expression, and two functions evaluate it:
`evaluate_simple_runtime_expression` (`src/rete/rete_node.cpp`) in patterns and accumulates, and
`RhsExecutor::evaluate_simple_rhs_value` (`src/engine/rhs_executor.cpp`) in actions. They are
copies of one another: the text is trimmed, a pair of parentheses around it is dropped, and it is
split at an arithmetic operator, whose two sides are evaluated in the same way.

The recursion is on shorter and shorter texts, and has a bound here (`evaluateText`), for which the
length of the text suffices. An exception that is raised when a variable is not found is no value,
as the empty result is: both end in an error of the caller.
-/

namespace RulesForge

/-! ### Parts of a text -/

/-- `trim_ascii`, which is `trim_expression_text` too. -/
def trimAscii (text : List Char) : List Char :=
  (text.dropWhile isSpace).rdropWhile isSpace

/-- A sign of the first pass, `+` or `-`, or of the second, `*` or `/`. -/
def isOperator (pass : ℕ) (c : Char) : Bool :=
  if pass = 0 then c = '+' || c = '-' else c = '*' || c = '/'

/-- A `+` or `-` at the front, or after an `e`, is not an operator but a part of a number. -/
def isExponentSign (before : List Char) (c : Char) : Bool :=
  (c = '+' || c = '-') &&
    (before.isEmpty || before.getLast? = some 'e' || before.getLast? = some 'E')

def wantedOperator (pass : ℕ) (before : List Char) (c : Char) : Bool :=
  isOperator pass c && !isExponentSign before c

/-- `find_top_level_arithmetic`, which is `find_simple_arithmetic_op` too: the text before the
operator, the operator and the text after it. -/
def findTopLevelArithmetic (text : List Char) : Option (List Char × Char × List Char) :=
  (splitAtTop (wantedOperator 0) {} [] text).or (splitAtTop (wantedOperator 1) {} [] text)

/-- `split_top_level_arguments`, with the argument that is being read. -/
def splitArguments : Scan → List Char → List Char → List (List Char)
  | _, arg, [] => [trimAscii arg]
  | s, arg, c :: text =>
    if s.atTop c && c = ',' then trimAscii arg :: splitArguments (s.next c) [] text
    else splitArguments (s.next c) (arg ++ [c]) text

def isNameStart (c : Char) : Bool := c.isAlpha || c = '_'

def isNameLetter (c : Char) : Bool := c.isAlphanum || c = '_'

/-- `parse_function_call`: a name and the arguments in parentheses after it. -/
def parseFunctionCall (text : List Char) : Option (String × List (List Char)) :=
  match text with
  | [] => none
  | c :: _ =>
    if isNameStart c then
      let name := text.takeWhile isNameLetter
      let wrapped := text.dropWhile isNameLetter
      if hasWrappingParentheses wrapped then
        some (String.ofList name, splitArguments {} [] (wrapped.drop 1).dropLast)
      else none
    else none

/-- The value of decimal digits. -/
def digitsValue (digits : List Char) : ℕ :=
  digits.foldl (fun n c ↦ 10 * n + (c.toNat - '0'.toNat)) 0

/-- The range of `int64_t`. -/
def fitsInt64 (i : ℤ) : Bool :=
  decide (-2 ^ 63 ≤ i ∧ i < 2 ^ 63)

/-- The value of digits after a sign or none. -/
def signedValue (negative : Bool) (digits : List Char) : ℤ :=
  if negative then -digitsValue digits else digitsValue digits

/-- The value of digits that are all of a number, if it is in range. -/
def integerOf (negative : Bool) (digits : List Char) : Option ℤ :=
  if digits ≠ [] ∧ digits.all Char.isDigit ∧ fitsInt64 (signedValue negative digits) then
    some (signedValue negative digits)
  else none

/-- `std::from_chars`, of which the whole text is asked. -/
def fromChars : List Char → Option ℤ
  | '-' :: digits => integerOf true digits
  | digits => integerOf false digits

/-! ### The evaluators -/

/-- What the evaluators use of the C library: `strtod` of a whole text, the functions of one and
of two numbers, and what the conversion of a double that is out of range gives, which the language
leaves open. -/
structure NumberLibrary where
  strtod : List Char → Option Double
  unary : String → Double → Double
  binary : String → Double → Double → Double
  outOfRange : Double → ℤ

/-- What the two evaluators differ in. -/
structure TextEvaluator where
  library : NumberLibrary
  number : ConstraintValue → Option Double
  constants : List (String × ConstraintValue)
  resolve : List Char → Option ConstraintValue

def pi : Double := .finite (.ofIntWithPrec 884279719003555 48)

def unaryFunctions : List String :=
  ["floor", "ceil", "abs", "round", "sqrt", "sin", "cos", "tan", "acos", "asin", "atan", "log",
    "exp"]

def binaryFunctions : List String := ["min", "max", "pow", "fmod"]

/-- `static_cast<int64_t>`. -/
def NumberLibrary.toInt64 (library : NumberLibrary) : Double → ℤ
  | .finite x =>
    if fitsInt64 (Double.finite x).toInt then (Double.finite x).toInt
    else library.outOfRange (.finite x)
  | x => library.outOfRange x

/-- The functions that are called by name. -/
def NumberLibrary.call (library : NumberLibrary) (name : String) (numbers : List Double) :
    Option ConstraintValue :=
  match numbers with
  | [x] => if name ∈ unaryFunctions then some (.double (library.unary name x)) else none
  | [x, y] => if name ∈ binaryFunctions then some (.double (library.binary name x y)) else none
  | _ => none

/-- An operation on two doubles, by its sign. -/
def applySign (sign : Char) (x y : Double) : Double :=
  match sign with
  | '+' => x.add y
  | '-' => x.sub y
  | '*' => x.mul y
  | _ => x.div y

namespace TextEvaluator

variable (evaluator : TextEvaluator)

/-- The value of an operation: two `int64` values have an `int64` result, but for a quotient. -/
def arithmetic (sign : Char) (lhs rhs : ConstraintValue) : Option ConstraintValue :=
  match evaluator.number lhs, evaluator.number rhs with
  | some x, some y =>
    if sign = '/' ∧ y = .finite 0 then none
    else
      match lhs, rhs with
      | .int64 _, .int64 _ =>
        if sign = '/' then some (.double (applySign sign x y))
        else some (.int64 (evaluator.library.toInt64 (applySign sign x y)))
      | _, _ => some (.double (applySign sign x y))
  | _, _ => none

/-- A text without an operator: a string, a constant, a variable or a number. -/
def atom (text : List Char) : Option ConstraintValue :=
  if text.head? = some '"' ∧ text.getLast? = some '"' ∨
      text.head? = some '\'' ∧ text.getLast? = some '\'' then
    some (.string (String.ofList ((text.drop 1).take (text.length - 2))))
  else
    match evaluator.constants.lookup (String.ofList text) with
    | some value => some value
    | none =>
      if text.head? = some '$' then evaluator.resolve text
      else
        match fromChars text with
        | some i => some (.int64 i)
        | none => (evaluator.library.strtod text).map .double

/-- The value of a text, with a bound on the depth of the recursion. -/
def evaluateText : ℕ → List Char → Option ConstraintValue
  | 0, _ => none
  | fuel + 1, expression =>
    let text := trimAscii expression
    if text = [] then none
    else if hasWrappingParentheses text then evaluateText fuel (text.drop 1).dropLast
    else if text = ['p', 'i'] then some (.double pi)
    else
      match parseFunctionCall text with
      | some (name, args) =>
        (args.mapM fun arg ↦ (evaluateText fuel arg).bind evaluator.number).bind
          (evaluator.library.call name)
      | none =>
        match findTopLevelArithmetic text with
        | some (lhs, sign, rhs) =>
          match evaluateText fuel lhs, evaluateText fuel rhs with
          | some a, some b => evaluator.arithmetic sign a b
          | _, _ => none
        | none => evaluator.atom text

end TextEvaluator

/-- `numeric_value`. -/
def numericValue (value : ConstraintValue) : Option Double :=
  (comparisonNumeric value).map RuntimeNumeric.toDouble

/-- `evaluate_simple_runtime_expression`; `resolve` is `resolve_expression_variable`. -/
def evaluateSimpleRuntimeExpression (library : NumberLibrary)
    (resolve : List Char → Option ConstraintValue) (expression : List Char) :
    Option ConstraintValue :=
  let evaluator : TextEvaluator :=
    { library := library
      number := numericValue
      constants := [("true", .bool true), ("false", .bool false)]
      resolve := resolve }
  evaluator.evaluateText (expression.length + 1) expression

def rhsConstants : List (String × ConstraintValue) :=
  [("true", .bool true), ("false", .bool false), ("nil", .nil), ("null", .nil)]

/-- The evaluator of actions; `resolve` is `resolve_variable`. -/
def rhsEvaluator (library : NumberLibrary) (resolve : List Char → Option ConstraintValue) :
    TextEvaluator where
  library := library
  number := scalarNumber
  constants := rhsConstants
  resolve := resolve

/-- `evaluate_simple_rhs_value`. -/
def evaluateSimpleRhsValue (library : NumberLibrary)
    (resolve : List Char → Option ConstraintValue) (expression : List Char) :
    Option ConstraintValue :=
  (rhsEvaluator library resolve).evaluateText (expression.length + 1) expression

end RulesForge
