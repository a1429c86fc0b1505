import RulesForge.Engine.ConditionEvaluation

/-!
# What the evaluators read in a text

`TextEvaluator.evaluateText` splits a text and evaluates the parts in one go. Here the two are
apart: `readText` is how a text is split, at parentheses, calls and operators, and the value of the
text is that of its reading (`evaluateText_eq_evaluate`). The **tokens** of a reading are the words,
strings and symbols that the evaluator takes the text for.
-/

namespace RulesForge

/-- A text as it is split. -/
inductive TextReading where
  | nothing
  | paren (inner : TextReading)
  | call (name : String) (args : List TextReading)
  | split (lhs : TextReading) (sign : Char) (rhs : TextReading)
  | atom (text : List Char)

/-- How a text is split, with a bound on the depth. -/
def readText : ℕ → List Char → TextReading
  | 0, _ => .nothing
  | fuel + 1, expression =>
    let text := trimAscii expression
    if text = [] then .nothing
    else if hasWrappingParentheses text then .paren (readText fuel (text.drop 1).dropLast)
    else if text = ['p', 'i'] then .atom text
    else
      match parseFunctionCall text with
      | some (name, args) => .call name (args.map (readText fuel))
      | none =>
        match findTopLevelArithmetic text with
        | some (lhs, sign, rhs) => .split (readText fuel lhs) sign (readText fuel rhs)
        | none => .atom text

namespace TextReading

section Evaluation

variable (evaluator : TextEvaluator)

mutual

/-- The value of what is read. -/
def evaluate : TextReading → Option ConstraintValue
  | .nothing => none
  | .paren inner => evaluate inner
  | .call name args => (numbers args).bind (evaluator.library.call name)
  | .split lhs sign rhs =>
    match evaluate lhs, evaluate rhs with
    | some a, some b => evaluator.arithmetic sign a b
    | _, _ => none
  | .atom text => if text = ['p', 'i'] then some (.double pi) else evaluator.atom text

/-- The numbers that the arguments of a call are. -/
def numbers : List TextReading → Option (List Double)
  | [] => some []
  | arg :: args =>
    ((evaluate arg).bind evaluator.number).bind fun number ↦ (numbers args).map (number :: ·)

end

theorem numbers_map (read : List Char → TextReading) (args : List (List Char)) :
    numbers evaluator (args.map read) =
      args.mapM fun arg ↦ (evaluate evaluator (read arg)).bind evaluator.number := by
  induction args with
  | nil => rfl
  | cons arg args ih =>
    rw [List.map_cons, numbers, ih, List.mapM_cons]
    cases (evaluate evaluator (read arg)).bind evaluator.number with
    | none => rfl
    | some number =>
      show Option.map (number :: ·) _ = Option.bind _ fun numbers ↦ some (number :: numbers)
      rw [Option.map_eq_bind]
      rfl

end Evaluation

end TextReading

/-- **The value of a text is that of its reading.** -/
theorem evaluateText_eq_evaluate (evaluator : TextEvaluator) (fuel : ℕ) (expression : List Char) :
    evaluator.evaluateText fuel expression = (readText fuel expression).evaluate evaluator := by
  induction fuel generalizing expression with
  | zero => rfl
  | succ fuel ih =>
    rw [TextEvaluator.evaluateText, readText]
    by_cases hnil : trimAscii expression = []
    · rw [if_pos hnil, if_pos hnil]
      rfl
    rw [if_neg hnil, if_neg hnil]
    by_cases hwraps : hasWrappingParentheses (trimAscii expression) = true
    · rw [if_pos hwraps, if_pos hwraps, ih]
      rfl
    rw [if_neg hwraps, if_neg hwraps]
    by_cases hpi : trimAscii expression = ['p', 'i']
    · rw [if_pos hpi, if_pos hpi, hpi]
      rfl
    rw [if_neg hpi, if_neg hpi]
    cases parseFunctionCall (trimAscii expression) with
    | some read =>
      obtain ⟨name, args⟩ := read
      dsimp only
      rw [TextReading.evaluate, TextReading.numbers_map]
      simp only [ih]
    | none =>
      cases findTopLevelArithmetic (trimAscii expression) with
      | some read =>
        obtain ⟨lhs, sign, rhs⟩ := read
        dsimp only
        rw [ih, ih]
        rfl
      | none =>
        dsimp only
        rw [TextReading.evaluate, if_neg hpi]

/-! ### Tokens -/

/-- What a text is taken for: words, strings and symbols. -/
inductive TextToken where
  | word (text : List Char)
  | string (letters : List Char)
  | symbol (text : List Char)
  deriving DecidableEq, Repr

/-- Tokens with commas between them. -/
def joinTokens (separator : TextToken) : List (List TextToken) → List TextToken
  | [] => []
  | [tokens] => tokens
  | tokens :: rest => tokens ++ separator :: joinTokens separator rest

/-- A text without an operator: a string, if there are quotes around it, or a word. -/
def atomToken (text : List Char) : TextToken :=
  if text.head? = some '"' ∧ text.getLast? = some '"' ∨
      text.head? = some '\'' ∧ text.getLast? = some '\'' then
    .string ((text.drop 1).take (text.length - 2))
  else .word text

namespace TextReading

mutual

def tokens : TextReading → List TextToken
  | .nothing => []
  | .paren inner => .symbol ['('] :: (tokens inner ++ [.symbol [')']])
  | .call name args =>
    .word name.toList :: .symbol ['('] ::
      (joinTokens (.symbol [',']) (tokensOf args) ++ [.symbol [')']])
  | .split lhs sign rhs => tokens lhs ++ .symbol [sign] :: tokens rhs
  | .atom text => [atomToken text]

def tokensOf : List TextReading → List (List TextToken)
  | [] => []
  | reading :: readings => tokens reading :: tokensOf readings

end

theorem tokensOf_eq_map (readings : List TextReading) :
    tokensOf readings = readings.map tokens := by
  induction readings with
  | nil => rfl
  | cons reading readings ih => rw [tokensOf, List.map_cons, ih]

end TextReading

/-- The tokens that `evaluate_simple_rhs_value` takes a text for. -/
def valueTokens (expression : List Char) : List TextToken :=
  (readText (expression.length + 1) expression).tokens

/-- The tokens that `evaluate_simple_rhs_condition` takes a text for. -/
def conditionTokens (expression : List Char) : List TextToken :=
  match findTopLevelCompare {} [] expression with
  | none => valueTokens expression
  | some (lhs, op, rhs) => valueTokens lhs ++ .symbol (compareSymbol op) :: valueTokens rhs

end RulesForge
