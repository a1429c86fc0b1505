import RulesForge.Parser.RhsLexer

/-!
# The expressions of right-hand sides

The recursive descent of `RhsParser::Parser` from `parse_expression` to `parse_term`
(`src/rhs_parser.cpp`), and the text that it puts an expression together to. The text is what the
parser keeps: operands with their operators between single spaces, strings between double quotes
without any escapes, and the calls of some functions under other names.

The parser returns a text. Here it returns the expression, and its text is computed from it as the
parser does it on its way (`RhsExpr.text`).
-/

namespace RulesForge

/-! ### Expressions -/

/-- The trees of `parse_expression`. -/
inductive RhsExpr where
  | ternary (condition trueExpr falseExpr : RhsExpr)
  | binary (op : RhsToken) (lhs rhs : RhsExpr)
  | paren (expr : RhsExpr)
  | path (word : RhsToken) (fields : List (List Char))
  | number (token : RhsToken)
  | call (name : List Char) (args : List RhsExpr)
  | string (letters : List Char)

/-- The name that a function is called with in the text. -/
def storedName (name : List Char) : List Char :=
  if name = "to_upper".toList then "upper".toList
  else if name = "to_lower".toList then "lower".toList
  else name

def callText (name : List Char) (args : List (List Char)) : List Char :=
  if name = "concat".toList then '(' :: " + ".toList.intercalate args ++ [')']
  else storedName name ++ '(' :: ", ".toList.intercalate args ++ [')']

mutual

/-- The text of an expression, as it is kept. -/
def RhsExpr.text : RhsExpr → List Char
  | .ternary condition trueExpr falseExpr =>
    '(' :: condition.text ++ ") ? (".toList ++ trueExpr.text ++ ") : (".toList ++
      falseExpr.text ++ [')']
  | .binary op lhs rhs => lhs.text ++ ' ' :: op.text ++ ' ' :: rhs.text
  | .paren expr => '(' :: expr.text ++ [')']
  | .path word fields => word.text ++ fields.flatMap ('.' :: ·)
  | .number token => token.text
  | .call name args => callText name (RhsExpr.texts args)
  | .string letters => '"' :: letters ++ ['"']

def RhsExpr.texts : List RhsExpr → List (List Char)
  | [] => []
  | expr :: exprs => expr.text :: texts exprs

end

/-- The token of a symbol. -/
def symbolToken (type : RhsTokenType) : RhsToken :=
  ⟨type, (RhsLexer.symbolText type).getD []⟩

mutual

/-- The tokens of an expression. -/
def RhsExpr.tokens : RhsExpr → List RhsToken
  | .ternary condition trueExpr falseExpr =>
    condition.tokens ++ symbolToken .question ::
      (trueExpr.tokens ++ symbolToken .colon :: falseExpr.tokens)
  | .binary op lhs rhs => lhs.tokens ++ op :: rhs.tokens
  | .paren expr => symbolToken .lparen :: (expr.tokens ++ [symbolToken .rparen])
  | .path word fields =>
    word :: fields.flatMap fun field ↦ [symbolToken .dot, ⟨.identifier, field⟩]
  | .number token => [token]
  | .call name args =>
    ⟨.identifier, name⟩ :: symbolToken .lparen :: (argTokens args ++ [symbolToken .rparen])
  | .string letters => [⟨.string, letters⟩]

/-- The tokens of arguments, with commas between them. -/
def argTokens : List RhsExpr → List RhsToken
  | [] => []
  | [expr] => expr.tokens
  | expr :: exprs => expr.tokens ++ symbolToken .comma :: argTokens exprs

end

/-! ### The parser -/

/-- What reads an expression off the front of some tokens, where they begin with one. -/
abbrev ExprParser := List RhsToken → Option (RhsExpr × List RhsToken)

/-- `consume`. -/
def consumeToken (type : RhsTokenType) : List RhsToken → Option (List RhsToken)
  | [] => none
  | t :: ts => if t.type = type then some ts else none

/-- The loop of a level of binary operators, with a bound on its rounds. -/
def parseLoop (types : List RhsTokenType) (operand : ExprParser) : ℕ → RhsExpr → ExprParser
  | 0, expr, ts => some (expr, ts)
  | _ + 1, expr, [] => some (expr, [])
  | bound + 1, expr, op :: ts =>
    if op.type ∈ types then
      (operand ts).bind fun (rhs, rest) ↦ parseLoop types operand bound (.binary op expr rhs) rest
    else some (expr, op :: ts)

def parseLevel (types : List RhsTokenType) (operand : ExprParser) : ExprParser := fun ts ↦
  (operand ts).bind fun (expr, rest) ↦ parseLoop types operand rest.length expr rest

/-- The fields behind a variable or a name. -/
def parseFields : List RhsToken → Option (List (List Char) × List RhsToken)
  | [] => some ([], [])
  | [t] => if t.type = .dot then none else some ([], [t])
  | t :: field :: rest =>
    if t.type = .dot then
      if field.type = .identifier then
        (parseFields rest).map fun (fields, rest) ↦ (field.text :: fields, rest)
      else none
    else some ([], t :: field :: rest)

/-- The arguments behind the first one, with a bound on their number. -/
def parseArgs (expression : ExprParser) : ℕ → List RhsToken → Option (List RhsExpr × List RhsToken)
  | 0, ts => some ([], ts)
  | _ + 1, [] => some ([], [])
  | bound + 1, t :: ts =>
    if t.type = .comma then
      (expression ts).bind fun (arg, rest) ↦
        (parseArgs expression bound rest).map fun (args, rest) ↦ (arg :: args, rest)
    else some ([], t :: ts)

/-- A call, behind its opening parenthesis. -/
def parseCall (expression : ExprParser) (name : List Char) : ExprParser := fun ts ↦
  match consumeToken .rparen ts with
  | some rest => if name = "concat".toList then none else some (.call name [], rest)
  | none =>
    (expression ts).bind fun (arg, rest) ↦
      (parseArgs expression rest.length rest).bind fun (args, rest) ↦
        (consumeToken .rparen rest).map fun rest ↦ (.call name (arg :: args), rest)

/-- `parse_term`. -/
def parseTerm (expression : ExprParser) : ExprParser
  | [] => none
  | t :: ts =>
    match t.type with
    | .lparen =>
      (expression ts).bind fun (expr, rest) ↦
        (consumeToken .rparen rest).map fun rest ↦ (.paren expr, rest)
    | .variable => (parseFields ts).map fun (fields, rest) ↦ (.path t fields, rest)
    | .integer | .double => some (.number t, ts)
    | .identifier =>
      match consumeToken .lparen ts with
      | some rest => parseCall expression t.text rest
      | none => (parseFields ts).map fun (fields, rest) ↦ (.path t fields, rest)
    | .string => some (.string t.text, ts)
    | _ => none

/-- The levels of binary operators, from `parse_power` out to `parse_or`. -/
def binaryLevels : List (List RhsTokenType) :=
  [[.caret], [.star, .slash, .mod], [.plus, .minus], [.gt, .lt, .ge, .le, .eq, .ne], [.and], [.or]]

/-- `parse_or`, which comes down to terms. -/
def parseOr (expression : ExprParser) : ExprParser :=
  binaryLevels.foldl (fun operand types ↦ parseLevel types operand) (parseTerm expression)

/-- `parse_ternary`, whose branches are expressions again. -/
def parseTernary (expression : ExprParser) : ExprParser := fun ts ↦
  (parseOr expression ts).bind fun (condition, rest) ↦
    match consumeToken .question rest with
    | none => some (condition, rest)
    | some rest =>
      (expression rest).bind fun (trueExpr, rest) ↦
        (consumeToken .colon rest).bind fun rest ↦
          (expression rest).map fun (falseExpr, rest) ↦
            (.ternary condition trueExpr falseExpr, rest)

/-- `parse_expression`, with a bound on the depth of expressions. -/
def parseExpression : ℕ → ExprParser
  | 0, _ => none
  | depth + 1, ts => parseTernary (parseExpression depth) ts

/-! ### What is parsed -/

/-- The number of the level that an operator belongs to. -/
def operatorRank (type : RhsTokenType) : ℕ :=
  binaryLevels.findIdx (fun types ↦ decide (type ∈ types)) + 1

/-- The level that an expression is read at: terms are at the bottom, and a ternary is above the
binary operators. -/
def RhsExpr.rank : RhsExpr → ℕ
  | .ternary _ _ _ => binaryLevels.length + 1
  | .binary op _ _ => operatorRank op.type
  | _ => 0

mutual

/-- The types of the tokens in an expression are those that the parser looks for, and an operator
has operands of lower levels, but for a left one of its own. -/
def RhsExpr.Typed : RhsExpr → Prop
  | .ternary condition trueExpr falseExpr => condition.Typed ∧ trueExpr.Typed ∧ falseExpr.Typed
  | .binary op lhs rhs =>
    (op.type ∈ binaryLevels.flatten ∧ lhs.rank ≤ operatorRank op.type ∧
      rhs.rank < operatorRank op.type) ∧ lhs.Typed ∧ rhs.Typed
  | .paren expr => expr.Typed
  | .path word _ => word.type = .variable ∨ word.type = .identifier
  | .number token => token.type = .integer ∨ token.type = .double
  | .call _ args => AllTyped args
  | .string _ => True

def AllTyped : List RhsExpr → Prop
  | [] => True
  | expr :: exprs => expr.Typed ∧ AllTyped exprs

end

/-- What is read is the tokens of an expression of some level at most, if they are as the lexer
makes them. -/
def Parses (parse : ExprParser) (rank : ℕ) : Prop :=
  ∀ ts expr rest, (∀ t ∈ ts, RhsLexer.WellFormed t) → parse ts = some (expr, rest) →
    ts = expr.tokens ++ rest ∧ expr.Typed ∧ expr.rank ≤ rank

section Parsing

open RhsLexer

variable {ts rest : List RhsToken} {expr : RhsExpr} {operand expression : ExprParser}

theorem wellFormed_of_append {first : List RhsToken} (h : ∀ t ∈ first ++ rest, WellFormed t) :
    ∀ t ∈ rest, WellFormed t :=
  fun t ht ↦ h t (List.mem_append_right first ht)

theorem wellFormed_tail {t : RhsToken} (h : ∀ t' ∈ t :: ts, WellFormed t') :
    ∀ t' ∈ ts, WellFormed t' :=
  fun t' ht' ↦ h t' (List.mem_cons_of_mem t ht')

/-- A symbol is told by its type. -/
theorem eq_symbolToken {t : RhsToken} (hwf : WellFormed t) {type : RhsTokenType}
    {text : List Char} (htext : symbolText type = some text) (ht : t.type = type) :
    t = symbolToken type := by
  obtain ⟨type', text'⟩ := t
  obtain rfl : type' = type := ht
  unfold WellFormed at hwf
  unfold symbolToken
  rw [htext]
  dsimp only at hwf
  cases type' <;> first | contradiction | (cases htext; cases hwf; rfl)

theorem consumeToken_eq_some {type : RhsTokenType} (h : consumeToken type ts = some rest) :
    ∃ t, ts = t :: rest ∧ t.type = type := by
  cases ts with
  | nil => contradiction
  | cons t ts =>
    rw [consumeToken] at h
    split at h
    · rename_i ht
      cases h
      exact ⟨t, rfl, ht⟩
    · contradiction

theorem consumeSymbol (hwf : ∀ t ∈ ts, WellFormed t) {type : RhsTokenType} {text : List Char}
    (htext : symbolText type = some text) (h : consumeToken type ts = some rest) :
    ts = symbolToken type :: rest := by
  obtain ⟨t, rfl, ht⟩ := consumeToken_eq_some h
  rw [eq_symbolToken (hwf t List.mem_cons_self) htext ht]

theorem parseLoop_tokens {types : List RhsTokenType} {rank : ℕ} (htypes : ∀ type ∈ types,
      type ∈ binaryLevels.flatten ∧ operatorRank type = rank + 1) (hoperand : Parses operand rank) :
    ∀ (bound : ℕ) (first : RhsExpr) (ts : List RhsToken) (expr : RhsExpr) (rest : List RhsToken),
      first.Typed → first.rank ≤ rank + 1 → (∀ t ∈ ts, WellFormed t) →
      parseLoop types operand bound first ts = some (expr, rest) →
      first.tokens ++ ts = expr.tokens ++ rest ∧ expr.Typed ∧ expr.rank ≤ rank + 1 := by
  intro bound
  induction bound with
  | zero =>
    intro first ts expr rest hfirst hrank _ h
    cases h
    exact ⟨rfl, hfirst, hrank⟩
  | succ bound ih =>
    intro first ts expr rest hfirst hrank hwf h
    cases ts with
    | nil =>
      cases h
      exact ⟨rfl, hfirst, hrank⟩
    | cons op ts =>
      rw [parseLoop] at h
      split at h
      · rename_i hop
        obtain ⟨⟨rhs, rest'⟩, hrhs, hloop⟩ := Option.bind_eq_some_iff.mp h
        obtain ⟨rfl, htyped, hlower⟩ := hoperand ts rhs rest' (wellFormed_tail hwf) hrhs
        obtain ⟨hmem, hlevel⟩ := htypes op.type hop
        -- the expression so far is the left side of the operator
        obtain ⟨htokens, hexpr⟩ := ih (.binary op first rhs) rest' expr rest
          ⟨⟨hmem, by omega, by omega⟩, hfirst, htyped⟩ hlevel.le
          (wellFormed_of_append (wellFormed_tail hwf)) hloop
        refine ⟨?_, hexpr⟩
        rw [← htokens, RhsExpr.tokens, List.append_assoc]
        rfl
      · cases h
        exact ⟨rfl, hfirst, hrank⟩

theorem parses_level {types : List RhsTokenType} {rank : ℕ} (htypes : ∀ type ∈ types,
      type ∈ binaryLevels.flatten ∧ operatorRank type = rank + 1) (hoperand : Parses operand rank) :
    Parses (parseLevel types operand) (rank + 1) := by
  intro ts expr rest hwf h
  obtain ⟨⟨first, rest'⟩, hfirst, hloop⟩ := Option.bind_eq_some_iff.mp h
  obtain ⟨rfl, htyped, hrank⟩ := hoperand ts first rest' hwf hfirst
  exact parseLoop_tokens htypes hoperand _ first rest' expr rest htyped (by omega)
    (wellFormed_of_append hwf) hloop

theorem parseFields_tokens : ∀ {ts : List RhsToken} {fields : List (List Char)}
    {rest : List RhsToken}, (∀ t ∈ ts, WellFormed t) → parseFields ts = some (fields, rest) →
      ts = (fields.flatMap fun field ↦ [symbolToken .dot, ⟨.identifier, field⟩]) ++ rest
  | [], _, _, _, h => by
    cases h
    rfl
  | [t], _, _, _, h => by
    rw [parseFields] at h
    split at h
    · contradiction
    · cases h
      rfl
  | t :: field :: ts, _, _, hwf, h => by
    rw [parseFields] at h
    split at h
    · rename_i hdot
      split at h
      · rename_i hfield
        obtain ⟨⟨fields, rest⟩, hfields, hrest⟩ := Option.map_eq_some_iff.mp h
        cases hrest
        have hts := parseFields_tokens (wellFormed_tail (wellFormed_tail hwf)) hfields
        rw [eq_symbolToken (hwf t List.mem_cons_self) rfl hdot, List.flatMap_cons,
          List.append_assoc, ← hts]
        obtain ⟨type, text⟩ := field
        obtain rfl : type = .identifier := hfield
        rfl
      · contradiction
    · cases h
      rfl

theorem parses_path {t : RhsToken} (ht : t.type = .variable ∨ t.type = .identifier)
    (hwf : ∀ t' ∈ t :: ts, WellFormed t')
    (h : ((parseFields ts).map fun (fields, rest) ↦ (RhsExpr.path t fields, rest)) =
      some (expr, rest)) : t :: ts = expr.tokens ++ rest ∧ expr.Typed ∧ expr.rank ≤ 0 := by
  obtain ⟨⟨fields, rest'⟩, hfields, hrest⟩ := Option.map_eq_some_iff.mp h
  cases hrest
  refine ⟨?_, ht, le_rfl⟩
  rw [RhsExpr.tokens, List.cons_append, ← parseFields_tokens (wellFormed_tail hwf) hfields]

theorem argTokens_cons_cons (arg arg' : RhsExpr) (args : List RhsExpr) :
    argTokens (arg :: arg' :: args) =
      arg.tokens ++ symbolToken .comma :: argTokens (arg' :: args) := by
  rw [argTokens]
  nofun

theorem parseArgs_tokens {rank : ℕ} (hexpression : Parses expression rank) :
    ∀ (bound : ℕ) (first : RhsExpr) (ts : List RhsToken) (args : List RhsExpr)
      (rest : List RhsToken), (∀ t ∈ ts, WellFormed t) →
      parseArgs expression bound ts = some (args, rest) → first.Typed →
      first.tokens ++ ts = argTokens (first :: args) ++ rest ∧ AllTyped (first :: args) := by
  intro bound
  induction bound with
  | zero =>
    intro first ts args rest _ h hfirst
    cases h
    exact ⟨rfl, hfirst, trivial⟩
  | succ bound ih =>
    intro first ts args rest hwf h hfirst
    cases ts with
    | nil =>
      cases h
      exact ⟨rfl, hfirst, trivial⟩
    | cons t ts =>
      rw [parseArgs] at h
      split at h
      · rename_i hcomma
        obtain ⟨⟨arg, rest'⟩, harg, hargs⟩ := Option.bind_eq_some_iff.mp h
        obtain ⟨⟨args', rest''⟩, hmore, hrest⟩ := Option.map_eq_some_iff.mp hargs
        cases hrest
        obtain ⟨rfl, htyped, -⟩ := hexpression ts arg rest' (wellFormed_tail hwf) harg
        obtain ⟨htokens, hall⟩ := ih arg rest' args' rest
          (wellFormed_of_append (wellFormed_tail hwf)) hmore htyped
        refine ⟨?_, hfirst, hall⟩
        rw [argTokens_cons_cons, htokens, eq_symbolToken (hwf t List.mem_cons_self) rfl hcomma,
          List.append_assoc]
        rfl
      · cases h
        exact ⟨rfl, hfirst, trivial⟩

theorem parseCall_tokens {rank : ℕ} (hexpression : Parses expression rank) {name : List Char}
    (hwf : ∀ t ∈ ts, WellFormed t) (h : parseCall expression name ts = some (expr, rest)) :
    ⟨.identifier, name⟩ :: symbolToken .lparen :: ts = expr.tokens ++ rest ∧ expr.Typed ∧
      expr.rank ≤ 0 := by
  unfold parseCall at h
  split at h
  · rename_i rest' hclose
    split at h
    · contradiction
    · cases h
      rw [consumeSymbol hwf rfl hclose]
      exact ⟨rfl, trivial, le_rfl⟩
  · obtain ⟨⟨arg, rest₁⟩, harg, hargs⟩ := Option.bind_eq_some_iff.mp h
    obtain ⟨⟨args, rest₂⟩, hmore, hclose⟩ := Option.bind_eq_some_iff.mp hargs
    obtain ⟨rest₃, hclose, hrest⟩ := Option.map_eq_some_iff.mp hclose
    cases hrest
    obtain ⟨rfl, htyped, -⟩ := hexpression ts arg rest₁ hwf harg
    obtain ⟨htokens, hall⟩ := parseArgs_tokens hexpression _ arg rest₁ args rest₂
      (wellFormed_of_append hwf) hmore htyped
    refine ⟨?_, hall, le_rfl⟩
    have hrest₂ : ∀ t ∈ rest₂, WellFormed t := fun t ht ↦ hwf t <| by
      rw [htokens]
      exact List.mem_append_right _ ht
    rw [htokens, consumeSymbol hrest₂ rfl hclose, RhsExpr.tokens]
    simp

theorem parses_term {rank : ℕ} (hexpression : Parses expression rank) :
    Parses (parseTerm expression) 0 := by
  intro ts expr rest hwf h
  cases ts with
  | nil => contradiction
  | cons t ts =>
    rw [parseTerm] at h
    split at h
    · rename_i htype
      obtain ⟨⟨inner, rest'⟩, hinner, hclose⟩ := Option.bind_eq_some_iff.mp h
      obtain ⟨rest'', hclose, hrest⟩ := Option.map_eq_some_iff.mp hclose
      cases hrest
      obtain ⟨rfl, htyped, -⟩ := hexpression ts inner rest' (wellFormed_tail hwf) hinner
      refine ⟨?_, htyped, le_rfl⟩
      rw [eq_symbolToken (hwf t List.mem_cons_self) rfl htype,
        consumeSymbol (wellFormed_of_append (wellFormed_tail hwf)) rfl hclose, RhsExpr.tokens]
      simp
    · rename_i htype
      exact parses_path (.inl htype) hwf h
    · rename_i htype
      cases h
      exact ⟨rfl, .inl htype, le_rfl⟩
    · rename_i htype
      cases h
      exact ⟨rfl, .inr htype, le_rfl⟩
    · rename_i htype
      split at h
      · rename_i rest' hopen
        have hts := consumeSymbol (wellFormed_tail hwf) rfl hopen
        rw [hts] at hwf ⊢
        obtain ⟨type, text⟩ := t
        obtain rfl : type = .identifier := htype
        exact parseCall_tokens hexpression (wellFormed_tail (wellFormed_tail hwf)) h
      · exact parses_path (.inr htype) hwf h
    · rename_i htype
      cases h
      obtain ⟨type, text⟩ := t
      obtain rfl : type = .string := htype
      exact ⟨rfl, trivial, le_rfl⟩
    · contradiction

/-- The levels have their ranks. -/
theorem parses_or {rank : ℕ} (hexpression : Parses expression rank) :
    Parses (parseOr expression) binaryLevels.length := by
  suffices hlevels : ∀ (levels before : List (List RhsTokenType)) (operand : ExprParser),
      binaryLevels = before ++ levels → Parses operand before.length →
      Parses (levels.foldl (fun operand types ↦ parseLevel types operand) operand)
        binaryLevels.length from hlevels binaryLevels [] _ rfl (parses_term hexpression)
  have hranks : ∀ i (h : i < binaryLevels.length), ∀ type ∈ binaryLevels.get ⟨i, h⟩,
      type ∈ binaryLevels.flatten ∧ operatorRank type = i + 1 := by decide
  intro levels
  induction levels with
  | nil =>
    intro before operand hbefore hoperand
    rw [List.append_nil] at hbefore
    rw [hbefore]
    exact hoperand
  | cons types levels ih =>
    intro before operand hbefore hoperand
    have hlength : before.length < binaryLevels.length := by
      rw [hbefore, List.length_append, List.length_cons]
      omega
    have htypes : binaryLevels.get ⟨before.length, hlength⟩ = types := by
      simp [hbefore]
    refine ih (before ++ [types]) _ (by rw [hbefore, List.append_assoc]; rfl) ?_
    rw [List.length_append]
    exact parses_level (htypes ▸ hranks before.length hlength) hoperand

/-- **What the parser reads** is the tokens of the expression that it returns. -/
theorem parses_expression (depth : ℕ) :
    Parses (parseExpression depth) (binaryLevels.length + 1) := by
  induction depth with
  | zero => exact fun _ _ _ _ h ↦ nomatch h
  | succ depth ih =>
    intro ts expr rest hwf h
    obtain ⟨⟨condition, rest₁⟩, hcondition, hbranches⟩ := Option.bind_eq_some_iff.mp h
    obtain ⟨rfl, htyped, hrank⟩ := parses_or ih ts condition rest₁ hwf hcondition
    have hwf₁ := wellFormed_of_append hwf
    dsimp only at hbranches
    split at hbranches
    · cases hbranches
      exact ⟨rfl, htyped, Nat.le_succ_of_le hrank⟩
    · rename_i rest₂ hquestion
      have hrest₁ := consumeSymbol hwf₁ rfl hquestion
      rw [hrest₁] at hwf₁ ⊢
      have hwf₂ := wellFormed_tail hwf₁
      obtain ⟨⟨trueExpr, rest₃⟩, htrue, hfalse⟩ := Option.bind_eq_some_iff.mp hbranches
      obtain ⟨rfl, htrueTyped, -⟩ := ih rest₂ trueExpr rest₃ hwf₂ htrue
      obtain ⟨rest₄, hcolon, hfalse⟩ := Option.bind_eq_some_iff.mp hfalse
      have hwf₃ := wellFormed_of_append hwf₂
      dsimp only at hcolon
      have hrest₃ := consumeSymbol hwf₃ rfl hcolon
      rw [hrest₃] at hwf₃ ⊢
      obtain ⟨⟨falseExpr, rest₅⟩, hlast, hrest⟩ := Option.map_eq_some_iff.mp hfalse
      cases hrest
      obtain ⟨rfl, hfalseTyped, -⟩ := ih rest₄ falseExpr rest₅ (wellFormed_tail hwf₃) hlast
      refine ⟨?_, ⟨htyped, htrueTyped, hfalseTyped⟩, le_rfl⟩
      rw [RhsExpr.tokens]
      simp

end Parsing

/-! ### The tokens of an expression follow each other -/

section Operands

open RhsLexer

/-- A sequence of tokens that begins and ends as an operand does, and whose tokens may follow each
other. -/
structure OperandTokens (ts : List RhsToken) : Prop where
  chain : ts.IsChain Meets
  begins : ∀ t ∈ ts.head?, isStarter t.type = true
  ends : ∀ t ∈ ts.getLast?, isEnder t.type = true
  ne_nil : ts ≠ []

variable {ts ts' : List RhsToken} {op : RhsToken}

theorem OperandTokens.single {t : RhsToken} (hstarter : isStarter t.type = true)
    (hender : isEnder t.type = true) : OperandTokens [t] where
  chain := .singleton t
  begins := by
    rintro t' ⟨⟩
    exact hstarter
  ends := by
    rintro t' ⟨⟩
    exact hender
  ne_nil := List.cons_ne_nil _ _

/-- Two operands with an operator, or what stands as one, between them. -/
theorem OperandTokens.join (h : OperandTokens ts) (h' : OperandTokens ts')
    (hop : isJoiner op.type = true) : OperandTokens (ts ++ op :: ts') where
  chain := by
    rw [List.isChain_append, List.isChain_cons]
    refine ⟨h.chain, ⟨fun t ht ↦ .begins (.inl hop) (h'.begins t ht), h'.chain⟩, ?_⟩
    rintro t ht op' ⟨⟩
    exact .ends (h.ends t ht) (.inl hop)
  begins t ht := by
    rw [List.head?_append_of_ne_nil ts h.ne_nil] at ht
    exact h.begins t ht
  ends t ht := by
    have hlast : (ts ++ op :: ts').getLast? = ts'.getLast? := by
      obtain ⟨t', tail, rfl⟩ := List.exists_cons_of_ne_nil h'.ne_nil
      rw [List.getLast?_append_of_ne_nil _ (List.cons_ne_nil _ _), List.getLast?_cons_cons]
    rw [hlast] at ht
    exact h'.ends t ht
  ne_nil := List.append_ne_nil_of_left_ne_nil h.ne_nil _

/-- An operand, or nothing, in parentheses. -/
theorem chain_parenthesised (h : ts = [] ∨ OperandTokens ts) :
    (symbolToken .lparen :: (ts ++ [symbolToken .rparen])).IsChain Meets := by
  rcases h with rfl | h
  · exact .cons_cons (.empty rfl rfl) (.singleton _)
  · rw [List.isChain_cons, List.isChain_append]
    refine ⟨fun t ht ↦ ?_, h.chain, .singleton _, ?_⟩
    · rw [List.head?_append_of_ne_nil ts h.ne_nil] at ht
      exact .begins (.inr rfl) (h.begins t ht)
    · rintro t ht t' ⟨⟩
      exact .ends (h.ends t ht) (.inr rfl)

theorem getLast?_parenthesised :
    (symbolToken .lparen :: (ts ++ [symbolToken .rparen])).getLast? =
      some (symbolToken .rparen) := by
  rw [← List.cons_append, List.getLast?_concat]

theorem OperandTokens.parenthesised (h : OperandTokens ts) :
    OperandTokens (symbolToken .lparen :: (ts ++ [symbolToken .rparen])) where
  chain := chain_parenthesised (.inr h)
  begins := by
    rintro t ⟨⟩
    rfl
  ends t ht := by
    rw [getLast?_parenthesised] at ht
    cases ht
    rfl
  ne_nil := List.cons_ne_nil _ _

theorem OperandTokens.call (h : ts = [] ∨ OperandTokens ts) (name : List Char) :
    OperandTokens
      (⟨.identifier, name⟩ :: symbolToken .lparen :: (ts ++ [symbolToken .rparen])) where
  chain := .cons_cons (.call rfl rfl) (chain_parenthesised h)
  begins := by
    rintro t ⟨⟩
    rfl
  ends t ht := by
    rw [List.getLast?_cons_cons, getLast?_parenthesised] at ht
    cases ht
    rfl
  ne_nil := List.cons_ne_nil _ _

/-- Names behind dots. -/
theorem OperandTokens.path {word : RhsToken}
    (hword : word.type = .variable ∨ word.type = .identifier) (fields : List (List Char)) :
    OperandTokens
      (word :: fields.flatMap fun field ↦ [symbolToken .dot, ⟨.identifier, field⟩]) := by
  have hstarter : isStarter word.type = true ∧ isEnder word.type = true := by
    rcases hword with hword | hword <;> rw [hword] <;> exact ⟨rfl, rfl⟩
  induction fields generalizing word with
  | nil => exact .single hstarter.1 hstarter.2
  | cons field fields ih =>
    have hrest := @ih ⟨.identifier, field⟩ (.inr rfl) ⟨rfl, rfl⟩
    rw [List.flatMap_cons]
    refine ⟨.cons_cons (.field hword rfl) ?_, ?_, fun t ht ↦ ?_, List.cons_ne_nil _ _⟩
    · exact hrest.chain.cons fun t ht ↦ by
        cases ht
        exact .dot rfl rfl
    · rintro t ⟨⟩
      exact hstarter.1
    · exact hrest.ends t (by rwa [List.cons_append, List.cons_append, List.getLast?_cons_cons,
        List.getLast?_cons_cons] at ht)

theorem isJoiner_of_mem {type : RhsTokenType} (h : type ∈ binaryLevels.flatten) :
    isJoiner type = true := by
  revert type
  decide

mutual

/-- **The tokens of an expression** may follow each other. -/
theorem RhsExpr.operand : ∀ expr : RhsExpr, expr.Typed → OperandTokens expr.tokens
  | .ternary condition trueExpr falseExpr, ⟨hcondition, htrue, hfalse⟩ =>
    (RhsExpr.operand condition hcondition).join
      ((RhsExpr.operand trueExpr htrue).join (RhsExpr.operand falseExpr hfalse) rfl) rfl
  | .binary _ lhs rhs, ⟨hop, hlhs, hrhs⟩ =>
    (RhsExpr.operand lhs hlhs).join (RhsExpr.operand rhs hrhs) (isJoiner_of_mem hop.1)
  | .paren expr, hexpr => (RhsExpr.operand expr hexpr).parenthesised
  | .path _ fields, hword => .path hword fields
  | .number token, htoken => by
    refine .single ?_ ?_ <;> rcases htoken with htoken | htoken <;> rw [htoken] <;> rfl
  | .call name args, hargs => .call (argTokens_operand args hargs) name
  | .string _, _ => .single rfl rfl

theorem argTokens_operand : ∀ args : List RhsExpr, AllTyped args →
    argTokens args = [] ∨ OperandTokens (argTokens args)
  | [], _ => .inl rfl
  | [arg], ⟨harg, _⟩ => .inr (RhsExpr.operand arg harg)
  | arg :: arg' :: args, ⟨harg, hargs⟩ => by
    refine .inr ?_
    rw [argTokens_cons_cons]
    refine (RhsExpr.operand arg harg).join ((argTokens_operand (arg' :: args) hargs).resolve_left
      fun hnil ↦ ?_) rfl
    -- the tokens of the next argument are some
    have harg' := (RhsExpr.operand arg' hargs.1).ne_nil
    cases args with
    | nil => exact harg' hnil
    | cons arg'' args =>
      rw [argTokens_cons_cons] at hnil
      exact harg' (List.append_eq_nil_iff.mp hnil).1

end

/-- No token of an operand is an error. -/
theorem OperandTokens.ne_error (h : OperandTokens ts) {t : RhsToken} (ht : t ∈ ts) :
    t.type ≠ .error := by
  obtain ⟨before, after, rfl⟩ := List.append_of_mem ht
  rcases List.eq_nil_or_concat before with rfl | ⟨before, t', rfl⟩
  · have hstarter := h.begins t rfl
    intro herror
    rw [herror] at hstarter
    contradiction
  · have hchain := h.chain
    rw [List.isChain_iff_forall_rel_of_append_cons_cons] at hchain
    have hmeets : Meets t' t := @hchain t' t before after (by simp)
    intro herror
    cases hmeets with
    | ends _ joiner =>
      rw [herror] at joiner
      rcases joiner with joiner | joiner <;> contradiction
    | begins _ starter =>
      rw [herror] at starter
      contradiction
    | field _ dot => exact RhsTokenType.noConfusion (herror.symm.trans dot)
    | dot _ word => exact RhsTokenType.noConfusion (herror.symm.trans word)
    | call _ lparen => exact RhsTokenType.noConfusion (herror.symm.trans lparen)
    | empty _ rparen => exact RhsTokenType.noConfusion (herror.symm.trans rparen)

/-- **When white space does not matter to an expression.** Every layout of its tokens is parsed as
the expression if and only if no minus stands before a number without a sign. -/
theorem layouts_parse_iff {source : List Char} {depth : ℕ} {expr : RhsExpr}
    (h : parseExpression depth (reader.tokens source) = some (expr, [])) :
    (∀ text, reader.Layout (reader.tokens source) text →
        parseExpression depth (reader.tokens text) = some (expr, [])) ↔
      (reader.tokens source).IsChain fun t t' ↦ ¬IsGlued t t' := by
  have hparsed : ∀ {text : List Char}, parseExpression depth (reader.tokens text) =
      some (expr, []) → reader.tokens text = expr.tokens ∧ expr.Typed := by
    intro text htext
    obtain ⟨htokens, htyped, -⟩ := parses_expression depth _ _ _
      (fun t ht ↦ wellFormed_of_mem_tokens ht) htext
    rw [List.append_nil] at htokens
    exact ⟨htokens, htyped⟩
  obtain ⟨htokens, htyped⟩ := hparsed h
  have hoperand := expr.operand htyped
  rw [← htokens] at hoperand
  rw [← layouts_read_iff
    (fun t ht ↦ ⟨wellFormed_of_mem_tokens ht, hoperand.ne_error ht⟩) hoperand.chain]
  refine forall₂_congr fun text _ ↦ ⟨fun htext ↦ ?_, fun htext ↦ ?_⟩
  · -- an expression has its tokens
    rw [(hparsed htext).1, htokens]
  · rw [htext]
    exact h

end Operands

end RulesForge
