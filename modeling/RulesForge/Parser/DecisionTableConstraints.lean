import RulesForge.Core.Constraint
import RulesForge.Parser.ConstraintLiterals
import RulesForge.Parser.DecisionTableText

/-!
# The constraints of decision tables

The compiler of decision tables (`src/decision_table_compiler.cpp`) reads a constraint with regular
expressions (`parse_constraint_text`) and a literal with the number functions of the standard
library (`parse_literal`). The expressions are searched as `std::regex_match` searches them: a field
is taken as long as possible, then the operators are tried in the order in which the expression
lists them, and the first that leaves a right side is taken. `std::stod` is a parameter: the double
that it reads from all of a text.
-/

namespace RulesForge

namespace DecisionTable

/-! ### Literals -/

def lowerCase (text : List Char) : List Char :=
  text.map Char.toLower

/-- `std::stoll` on all of a text without white space around it. -/
def parseInteger (raw : List Char) : Option ℤ :=
  let unsigned := if raw.head? = some '-' ∨ raw.head? = some '+' then raw.tail else raw
  if unsigned.all Char.isDigit then stoll raw else none

section Literals

variable (stod : List Char → Option Double)

/-- `parse_literal`. -/
def parseLiteral (raw : List Char) : Option ConstraintValue :=
  let raw := trimAscii raw
  if raw = [] then none
  else if raw.head? = some '"' ∧ raw.getLast? = some '"' ∨
      raw.head? = some '\'' ∧ raw.getLast? = some '\'' then
    some (.string (String.ofList (between raw)))
  else if lowerCase raw = "true".toList then some (.bool true)
  else if lowerCase raw = "false".toList then some (.bool false)
  else match parseInteger raw, stod raw with
    | some i, _ => some (.int64 i)
    | none, some d => some (.double d)
    | none, none => some (.string (String.ofList raw))

/-- `parse_rhs_list_values`. -/
def parseRhsListValues (rhs : List Char) : Option (List ConstraintValue) :=
  let rhs := trimAscii rhs
  if rhs.length < 2 ∨ rhs.head? ≠ some '(' ∨ rhs.getLast? ≠ some ')' then none
  else
    let inner := trimAscii (between rhs)
    if inner = [] then none
    else
      let parts := splitTopLevelComma inner
      if parts = [] then none else parts.mapM (parseLiteral stod)

/-- `parse_rhs_value`. A text that begins with a `$` is an expression, a field of a variable or a
variable. -/
def parseRhsValue (rhs : List Char) (op : CompareOp) (c : ParsedConstraint) :
    Option ParsedConstraint :=
  if op = .in ∨ op = .notIn then
    (parseRhsListValues stod rhs).map fun values ↦
      { c with rightValueList := some values, rightLiteral := none }
  else
    (parseLiteral stod rhs).map fun literal ↦
      match literal with
      | .string s =>
        if s.toList.head? = some '$' then
          if s.toList.any fun d ↦ d = '+' ∨ d = '-' ∨ d = '*' ∨ d = '/' then
            { c with rightArithExpr := some s, rightLiteral := none, rightBoundField := none }
          else if '.' ∈ s.toList then
            { c with
              rightBoundField := some (String.ofList (s.toList.takeWhile (· ≠ '.')),
                String.ofList (s.toList.dropWhile (· ≠ '.')).tail)
              rightLiteral := none }
          else { c with rightBoundField := some (s, "this"), rightLiteral := none }
        else { c with rightLiteral := some literal }
      | literal => { c with rightLiteral := some literal }

end Literals

/-! ### Operators -/

/-- `parse_compare_op`. -/
def parseCompareOp (text : List Char) : CompareOp :=
  if text = "==".toList then .eq
  else if text = "!=".toList then .ne
  else if text = ">".toList then .gt
  else if text = "<".toList then .lt
  else if text = ">=".toList then .ge
  else if text = "<=".toList then .le
  else if text = "has_flag".toList then .hasFlag
  else if text = "contains".toList then .contains
  else if text = "not contains".toList then .notContains
  else if text = "matches".toList then .matches
  else if text = "not matches".toList then .notMatches
  else if text = "startsWith".toList then .startsWith
  else if text = "endsWith".toList then .endsWith
  else if text = "lengthIs".toList then .lengthIs
  else if text = "memberOf".toList then .memberOf
  else if text = "not memberOf".toList then .notMemberOf
  else if text = "in".toList then .in
  else if text = "not in".toList then .notIn
  else if text = "containsKey".toList then .containsKey
  else if text = "not containsKey".toList then .notContainsKey
  else .none

/-- `parse_compare_op_ci`. -/
def parseCompareOpCi (text : List Char) : CompareOp :=
  parseCompareOp (lowerCase text)

/-- The operators of `cpat` and `binding_rel_pat` in their order. -/
def operatorTexts : List (List Char) :=
  ["==", "!=", ">=", "<=", ">", "<", "contains", "not contains", "matches", "not matches",
    "startsWith", "endsWith", "lengthIs", "memberOf", "not memberOf", "in", "not in",
    "containsKey", "not containsKey"].map String.toList

/-! ### Regular expressions -/

/-- `[A-Za-z_]`. -/
def isFieldStart (c : Char) : Bool := c.isAlpha || c = '_'

/-- `[A-Za-z0-9_\.]`. -/
def isFieldLetter (c : Char) : Bool := c.isAlphanum || c = '_' || c = '.'

/-- `[A-Za-z_][A-Za-z0-9_\.]*` as long as possible. -/
def matchField (text : List Char) : Option (List Char × List Char) :=
  match text with
  | c :: rest =>
    if isFieldStart c then some (c :: rest.takeWhile isFieldLetter, rest.dropWhile isFieldLetter)
    else none
  | [] => none

/-- `(\$[A-Za-z_][A-Za-z0-9_]*)\s*:\s*`. -/
def matchBinding (text : List Char) : Option (List Char × List Char) :=
  match text with
  | '$' :: c :: rest =>
    if isFieldStart c then
      let name := '$' :: c :: rest.takeWhile fun d ↦ d.isAlphanum || d = '_'
      match (rest.dropWhile fun d ↦ d.isAlphanum || d = '_').dropWhile isSpace with
      | ':' :: rest => some (name, rest.dropWhile isSpace)
      | _ => none
    else none
  | _ => none

/-- A right side: something without a line break. White space at the end of the whole text is no
concern, it has been trimmed. -/
def isRightSide (rhs : List Char) : Bool :=
  !rhs.isEmpty && rhs.all fun c ↦ c ≠ '\n' && c ≠ '\r'

/-- `\s*(operator)\s*(.+)\s*$` with the operators in their order. -/
def matchOperator (text : List Char) : Option (List Char × List Char) :=
  operatorTexts.findSome? fun op ↦
    let rest := text.dropWhile isSpace
    let rhs := (rest.drop op.length).dropWhile isSpace
    if startsWithCi rest op && isRightSide rhs then some (rest.take op.length, rhs) else none

/-- `(field)\s*(operator)\s*(.+)\s*$`: a field is given letters back until an operator follows. -/
def matchRelation : ℕ → List Char → Option (List Char × List Char × List Char)
  | 0, _ => none
  | length + 1, text =>
    match matchOperator (text.drop (length + 1)) with
    | some (op, rhs) => some (text.take (length + 1), op, rhs)
    | none => matchRelation length text

/-- The relation at the front of a text that begins with a field. -/
def matchFieldRelation (text : List Char) : Option (List Char × List Char × List Char) :=
  match matchField text with
  | some (field, _) => matchRelation field.length text
  | none => none

/-- A field and nothing else. -/
def matchBareField (text : List Char) : Option (List Char) :=
  match matchField text with
  | some (field, rest) => if rest.all isSpace then some field else none
  | none => none

/-- `!\s*` at the front. -/
def matchNegation (text : List Char) : Option (List Char) :=
  match text with
  | '!' :: rest => some (rest.dropWhile isSpace)
  | _ => none

section Constraints

variable (stod : List Char → Option Double)

/-- A constraint with a relation. -/
def relationConstraint (fieldBinding : Option (List Char))
    (relation : List Char × List Char × List Char) : Option ParsedConstraint :=
  let op := parseCompareOpCi relation.2.1
  if op = .none then none
  else parseRhsValue stod relation.2.2 op
    { fieldBinding := fieldBinding.map String.ofList
      leftField := String.ofList relation.1
      op := op }

/-- A constraint that compares a field with a truth value. -/
def flagConstraint (field : List Char) (value : Bool) : ParsedConstraint :=
  { leftField := String.ofList field, op := .eq, rightLiteral := some (.bool value) }

/-- `parse_constraint_text`. -/
def parseConstraintText (text : List Char) : Option ParsedConstraint :=
  let normalized := stripOuterParens text
  match matchBinding normalized with
  | some (name, rest) =>
    match matchBareField rest with
    | some field =>
      some { fieldBinding := some (String.ofList name), leftField := String.ofList field }
    | none => (matchFieldRelation rest).bind (relationConstraint stod (some name))
  | none =>
    match matchFieldRelation normalized with
    | some relation => relationConstraint stod none relation
    | none =>
      match matchBareField normalized with
      | some field => some (flagConstraint field true)
      | none => ((matchNegation normalized).bind matchBareField).map fun field ↦
          flagConstraint field false

end Constraints

/-! ### Literals as the grammar has them -/

/-- An integer that an `int64` holds, a text or a truth value. -/
def FitsInt64 : LiteralToken → Prop
  | .integer negative digits _ _ => fitsInt64 (signedValue negative digits) = true
  | _ => True

section Literals

variable {stod : List Char → Option Double} {negative : Bool} {digits body : List Char}

theorem tight_digits (hne : digits ≠ []) (hdigits : digits.all Char.isDigit = true) :
    Tight (if negative then '-' :: digits else digits) := by
  have hspace : ∀ c ∈ digits, isSpace c = false := fun c hc ↦
    (isDigit_plain (List.all_eq_true.mp hdigits c hc)).2.1
  cases negative with
  | true =>
    refine .of_forall (List.cons_ne_nil '-' digits) fun c hc ↦ ?_
    rcases List.mem_cons.mp hc with rfl | hc
    · rfl
    · exact hspace c hc
  | false => exact .of_forall hne hspace

theorem tight_quoted {quote : Char} (hquote : quote = '"' ∨ quote = '\'') (body : List Char) :
    Tight (quote :: body ++ [quote]) := by
  have hspace : isSpace quote = false := by
    rcases hquote with rfl | rfl <;> rfl
  exact ⟨⟨quote, body ++ [quote], rfl, hspace⟩, ⟨quote :: body, quote, rfl, hspace⟩⟩

theorem tight_token (token : LiteralToken) : Tight token.text := by
  cases token with
  | integer negative digits hne hdigits => exact tight_digits hne hdigits
  | string token => exact tight_quoted token.isQuote token.body
  | bool b =>
    cases b with
    | true => exact ⟨⟨'t', _, rfl, rfl⟩, ⟨"tru".toList, 'e', rfl, rfl⟩⟩
    | false => exact ⟨⟨'f', _, rfl, rfl⟩, ⟨"fals".toList, 'e', rfl, rfl⟩⟩

theorem parseInteger_text (hne : digits ≠ []) (hdigits : digits.all Char.isDigit = true) :
    parseInteger (if negative then '-' :: digits else digits) =
      if fitsInt64 (signedValue negative digits) then some (signedValue negative digits)
      else none := by
  rw [← stoll_text hne hdigits]
  cases negative with
  | true =>
    show (if digits.all Char.isDigit then stoll ('-' :: digits) else none) = _
    rw [if_pos hdigits]
    rfl
  | false =>
    obtain ⟨c, digits, rfl⟩ := List.exists_cons_of_ne_nil hne
    have hc : c.isDigit = true := List.all_eq_true.mp hdigits c List.mem_cons_self
    have hsign : ¬ ((c :: digits).head? = some '-' ∨ (c :: digits).head? = some '+') := by
      rintro (h | h) <;> obtain rfl := Option.some.inj h <;> cases hc
    show parseInteger (c :: digits) = stoll (c :: digits)
    rw [parseInteger]
    simp only [if_neg hsign, hdigits, if_true]

/-- The letters from `A` to `Z` alone have another lower case. -/
theorem toLower_of_not_upper {c : Char} (h : ¬ (c.val ≥ 'A'.val ∧ c.val ≤ 'Z'.val)) :
    c.toLower = c :=
  dif_neg h

theorem val_toLower {c : Char} (h : c.val ≥ 'A'.val ∧ c.val ≤ 'Z'.val) :
    c.toLower.val = c.val + ('a'.val - 'A'.val) :=
  congrArg Char.val (dif_pos h)

/-- A text that begins with no letter is no truth value. -/
theorem lowerCase_ne_of_head {c d : Char} {tail tail' : List Char} (hc : c.isAlpha = false)
    (hd : d.isAlpha = true) : lowerCase (c :: tail) ≠ d :: tail' := by
  intro heq
  have hupper : ¬ (c.val ≥ 'A'.val ∧ c.val ≤ 'Z'.val) :=
    of_decide_eq_false (Bool.or_eq_false_iff.mp hc).1
  have hhead : c.toLower = d := (List.cons.inj heq).1
  rw [toLower_of_not_upper hupper] at hhead
  rw [← hhead, hc] at hd
  cases hd

theorem isAlpha_of_isDigit {c : Char} (hc : c.isDigit = true) : c.isAlpha = false := by
  have hrange := range_of_isDigit hc
  refine Bool.eq_false_iff.mpr fun halpha ↦ ?_
  have hle := le_toNat_of_isAlpha halpha
  omega

/-- **The literal of a token** is the one that the parser of rules gives it, unless it is an
integer out of range: the parser makes that 0, here it is a double or a text. -/
theorem parseLiteral_token_iff (token : LiteralToken) :
    parseLiteral stod token.text = some (primaryExprVal token) ↔ FitsInt64 token := by
  have htight := tight_token token
  rw [parseLiteral]
  simp only [htight.trim, if_neg htight.ne_nil]
  cases token with
  | integer negative digits hne hdigits =>
    obtain ⟨c, tail, htext, hc, hquotes⟩ : ∃ c tail,
        (if negative then '-' :: digits else digits) = c :: tail ∧ c.isAlpha = false ∧
          c ≠ '"' ∧ c ≠ '\'' := by
      cases negative with
      | true => exact ⟨'-', digits, rfl, rfl, by decide, by decide⟩
      | false =>
        obtain ⟨c, tail, rfl⟩ := List.exists_cons_of_ne_nil hne
        have hc : c.isDigit = true := List.all_eq_true.mp hdigits c List.mem_cons_self
        refine ⟨c, tail, rfl, isAlpha_of_isDigit hc, ?_, ?_⟩ <;> rintro rfl <;> cases hc
    have hunquoted : ¬ ((LiteralToken.integer negative digits hne hdigits).text.head? = some '"' ∧
        (LiteralToken.integer negative digits hne hdigits).text.getLast? = some '"' ∨
        (LiteralToken.integer negative digits hne hdigits).text.head? = some '\'' ∧
        (LiteralToken.integer negative digits hne hdigits).text.getLast? = some '\'') := by
      rintro (⟨h, -⟩ | ⟨h, -⟩) <;> rw [LiteralToken.text, htext] at h
      · exact hquotes.1 (Option.some.inj h)
      · exact hquotes.2 (Option.some.inj h)
    have htrue : lowerCase (LiteralToken.integer negative digits hne hdigits).text ≠
        "true".toList := by
      rw [LiteralToken.text, htext]
      exact lowerCase_ne_of_head hc rfl
    have hfalse : lowerCase (LiteralToken.integer negative digits hne hdigits).text ≠
        "false".toList := by
      rw [LiteralToken.text, htext]
      exact lowerCase_ne_of_head hc rfl
    rw [if_neg hunquoted, if_neg htrue, if_neg hfalse, LiteralToken.text,
      parseInteger_text hne hdigits]
    cases hfits : fitsInt64 (signedValue negative digits) with
    | true =>
      have hvalue := (parseInt_eq_iff hne hdigits).mpr hfits
      exact iff_of_true (congrArg (fun i ↦ some (ConstraintValue.int64 i)) hvalue.symm) hfits
    | false =>
      refine iff_of_false (fun heq ↦ ?_) (fun h ↦ Bool.false_ne_true (hfits.symm.trans h))
      cases hd : stod (if negative then '-' :: digits else digits) with
      | none =>
        rw [hd] at heq
        cases heq
      | some d =>
        rw [hd] at heq
        cases heq
  | string token =>
    have hquoted : (LiteralToken.string token).text.head? = some token.quote ∧
        (LiteralToken.string token).text.getLast? = some token.quote :=
      ⟨rfl, List.getLast?_concat⟩
    have hbetween : between (LiteralToken.string token).text = token.body := by
      show (token.body ++ [token.quote]).dropLast = token.body
      exact List.dropLast_concat
    have hvalue : primaryExprVal (.string token) = .string (String.ofList token.body) :=
      congrArg (fun body ↦ ConstraintValue.string (String.ofList body))
        (stripQuotes_text token.isQuote token.body)
    refine iff_of_true ?_ trivial
    rw [if_pos, hbetween, hvalue]
    rcases token.isQuote with hquote | hquote <;> rw [hquote] at hquoted
    · exact .inl hquoted
    · exact .inr hquoted
  | bool b => cases b <;> exact iff_of_true rfl trivial

end Literals

/-! ### The first operator -/

section Operators

variable {a b s : Char} {text word op op' rest : List Char}

@[simp]
theorem startsWithCi_nil : startsWithCi text [] = true := by
  simp [startsWithCi]

@[simp]
theorem startsWithCi_cons : startsWithCi (a :: text) (b :: word) =
    (decide (a.toLower = b.toLower) && startsWithCi text word) := by
  by_cases hab : a.toLower = b.toLower
  · simp [startsWithCi, hab]
  · simp [startsWithCi, hab]

theorem startsWithCi_self_append (word rest : List Char) :
    startsWithCi (word ++ rest) word = true := by
  induction word with
  | nil => exact startsWithCi_nil
  | cons c word ih => rw [List.cons_append, startsWithCi_cons, ih, decide_eq_true rfl]; rfl

/-- An operator that cannot stand where another stands with a space after it. -/
def clashes : List Char → List Char → Bool
  | a :: op, b :: op' => decide (a.toLower ≠ b.toLower) || clashes op op'
  | [], b :: _ => !isSpace b.toLower
  | _, [] => false

theorem toNat_of_isSpace (hs : isSpace s = true) : s.toNat ≤ 32 := by
  simp only [isSpace, Bool.or_eq_true, Bool.and_eq_true, decide_eq_true_eq] at hs
  rcases hs with rfl | ⟨-, hsmall⟩
  · decide
  · omega

theorem toLower_of_isSpace (hs : isSpace s = true) : s.toLower = s := by
  have hupper : ¬ (s.val ≥ 'A'.val ∧ s.val ≤ 'Z'.val) := by
    rintro ⟨hle, -⟩
    have hnat : 65 ≤ s.toNat := hle
    have hsmall := toNat_of_isSpace hs
    omega
  exact toLower_of_not_upper hupper

theorem startsWithCi_of_clashes (hs : isSpace s = true) (h : clashes op op' = true) :
    startsWithCi (op ++ s :: rest) op' = false := by
  induction op generalizing op' with
  | nil =>
    cases op' with
    | nil => cases h
    | cons b op' =>
      have hne : s.toLower ≠ b.toLower := by
        intro heq
        have hb : isSpace b.toLower = false := by simpa [clashes] using h
        rw [← heq, toLower_of_isSpace hs, hs] at hb
        cases hb
      rw [List.nil_append, startsWithCi_cons, decide_eq_false hne]
      rfl
  | cons a op ih =>
    cases op' with
    | nil => cases h
    | cons b op' =>
      rw [List.cons_append, startsWithCi_cons]
      rcases Bool.or_eq_true_iff.mp h with hne | hlater
      · rw [decide_eq_false (of_decide_eq_true hne)]
        rfl
      · rw [ih hlater, Bool.and_false]

/-- Two operators with different letters at one place. -/
def differs : List Char → List Char → Bool
  | a :: op, b :: op' => decide (a.toLower ≠ b.toLower) || differs op op'
  | _, _ => false

theorem startsWithCi_of_differs (h : differs op op' = true) :
    startsWithCi (op ++ rest) op' = false := by
  induction op generalizing op' with
  | nil => cases h
  | cons a op ih =>
    cases op' with
    | nil => cases h
    | cons b op' =>
      rw [List.cons_append, startsWithCi_cons]
      rcases Bool.or_eq_true_iff.mp h with hne | hlater
      · rw [decide_eq_false (of_decide_eq_true hne)]
        rfl
      · rw [ih hlater, Bool.and_false]

/-- The operators that are compiled, each with what it is compiled to. -/
def directOperators : List (List Char × CompareOp) :=
  [("==".toList, .eq), ("!=".toList, .ne), (">=".toList, .ge), ("<=".toList, .le),
    (">".toList, .gt), ("<".toList, .lt), ("contains".toList, .contains),
    ("not contains".toList, .notContains), ("matches".toList, .matches),
    ("not matches".toList, .notMatches), ("in".toList, .in), ("not in".toList, .notIn)]

/-- No operator before it in the expression stands where a direct operator stands. -/
theorem directOperators_first : ∀ op ∈ directOperators, op.1 ∈ operatorTexts ∧
    (operatorTexts.takeWhile (· ≠ op.1)).all (clashes op.1) = true ∧
    parseCompareOpCi op.1 = op.2 ∧ op.2 ≠ .none ∧
    isSpace (op.1.headD ' ') = false := by
  decide

variable {spaces spaces' rhs field : List Char} {t : Char} {operator : List Char × CompareOp}

/-- `matchOperator` finds an operator when no other before it in the expression stands there. -/
theorem matchOperator_first {rest : List Char} (hmem : op ∈ operatorTexts)
    (hhead : isSpace (op.headD ' ') = false) (hspaces : Blank spaces)
    (hfirst : ∀ op' ∈ operatorTexts.takeWhile (· ≠ op), startsWithCi (op ++ rest) op' = false)
    (hline : isRightSide (rest.dropWhile isSpace) = true) :
    matchOperator (spaces ++ (op ++ rest)) = some (op, rest.dropWhile isSpace) := by
  have hdrop : (spaces ++ (op ++ rest)).dropWhile isSpace = op ++ rest := by
    rw [List.dropWhile_append_of_pos fun c hc ↦ hspaces c hc]
    cases op with
    | nil => cases hhead
    | cons c tail => exact List.dropWhile_cons_of_neg (by simpa using hhead)
  have hlist : operatorTexts = operatorTexts.takeWhile (· ≠ op) ++
      operatorTexts.dropWhile (· ≠ op) := List.takeWhile_append_dropWhile.symm
  obtain ⟨after, hafter⟩ : ∃ after, operatorTexts.dropWhile (· ≠ op) = op :: after := by
    cases hdropped : operatorTexts.dropWhile (· ≠ op) with
    | nil =>
      have hall := List.dropWhile_eq_nil_iff.mp hdropped op hmem
      exact absurd rfl (of_decide_eq_true hall)
    | cons op' after =>
      have hnot := List.head?_dropWhile_not (· ≠ op) operatorTexts
      rw [hdropped] at hnot
      obtain rfl : op' = op := by simpa using hnot
      exact ⟨after, rfl⟩
  refine List.findSome?_eq_some_iff.mpr
    ⟨_, op, after, hlist.trans (congrArg _ hafter), ?_, fun op' hop' ↦ ?_⟩
  · simp only [hdrop, List.drop_left, startsWithCi_self_append, hline, List.take_left,
      Bool.and_self, if_true]
  · simp only [hdrop, hfirst op' hop', Bool.false_and, Bool.false_eq_true, if_false]

/-- A right side after white space. -/
theorem dropWhile_rightSide (hs : isSpace s = true) (hspaces' : Blank spaces')
    (htight : Tight rhs) : (s :: (spaces' ++ rhs)).dropWhile isSpace = rhs := by
  obtain ⟨c, tail, rfl, hc⟩ := htight.head
  rw [List.dropWhile_cons_of_pos hs, List.dropWhile_append_of_pos fun d hd ↦ hspaces' d hd,
    List.dropWhile_cons_of_neg (by simp [hc])]

/-- `matchOperator` finds a direct operator with spaces around it. -/
theorem matchOperator_direct (hop : operator ∈ directOperators) (hspaces : Blank spaces)
    (hs : isSpace s = true) (hspaces' : Blank spaces') (htight : Tight rhs)
    (hline : isRightSide rhs = true) :
    matchOperator (spaces ++ (operator.1 ++ s :: (spaces' ++ rhs))) = some (operator.1, rhs) := by
  obtain ⟨hmem, hfirst, -, -, hhead⟩ := directOperators_first operator hop
  have hright := dropWhile_rightSide hs hspaces' htight
  rw [matchOperator_first hmem hhead hspaces
    (fun op' hop' ↦ startsWithCi_of_clashes hs (List.all_eq_true.mp hfirst op' hop'))
    (by rw [hright]; exact hline), hright]

/-- `[A-Za-z_][A-Za-z0-9_\.]*`. -/
def IsField (field : List Char) : Prop :=
  ∃ c tail, field = c :: tail ∧ isFieldStart c = true ∧ tail.all isFieldLetter = true

theorem isFieldLetter_of_isSpace (hs : isSpace s = true) : isFieldLetter s = false := by
  have hsmall := toNat_of_isSpace hs
  refine Bool.eq_false_iff.mpr fun hletter ↦ ?_
  simp only [isFieldLetter, Bool.or_eq_true, decide_eq_true_eq] at hletter
  rcases hletter with (halpha | rfl) | rfl
  · have hle := le_toNat_of_isAlphanum halpha
    omega
  · exact absurd hsmall (by decide)
  · exact absurd hsmall (by decide)

theorem IsField.letters (h : IsField field) : ∀ c ∈ field, isFieldLetter c = true := by
  obtain ⟨c, tail, rfl, hc, htail⟩ := h
  intro d hd
  rcases List.mem_cons.mp hd with rfl | hd
  · simp only [isFieldStart, Bool.or_eq_true] at hc
    rw [isFieldLetter, Char.isAlphanum]
    rcases hc with hc | hc
    · rw [hc]
      rfl
    · rw [hc, Bool.or_true]
      rfl
  · exact List.all_eq_true.mp htail d hd

theorem IsField.tight (h : IsField field) : Tight field := by
  have hspace : ∀ c ∈ field, isSpace c = false := fun c hc ↦ by
    refine Bool.eq_false_iff.mpr fun hspace ↦ ?_
    have hletter := h.letters c hc
    rw [isFieldLetter_of_isSpace hspace] at hletter
    cases hletter
  obtain ⟨c, tail, rfl, -, -⟩ := h
  exact .of_forall (List.cons_ne_nil c tail) hspace

theorem matchField_append (hfield : IsField field) (ht : isFieldLetter t = false)
    (rest : List Char) : matchField (field ++ t :: rest) = some (field, t :: rest) := by
  obtain ⟨c, tail, rfl, hc, htail⟩ := hfield
  have hletters := List.all_eq_true.mp htail
  have htake : (tail ++ t :: rest).takeWhile isFieldLetter = tail := by
    rw [List.takeWhile_append_of_pos hletters, List.takeWhile_cons_of_neg (by simp [ht]),
      List.append_nil]
  have hdrop : (tail ++ t :: rest).dropWhile isFieldLetter = t :: rest := by
    rw [List.dropWhile_append_of_pos hletters, List.dropWhile_cons_of_neg (by simp [ht])]
  rw [List.cons_append, matchField, if_pos hc, htake, hdrop]

/-- A field with an operator after it is taken whole. -/
theorem matchFieldRelation_append (hfield : IsField field) (ht : isSpace t = true)
    {rest : List Char} {op rhs : List Char} (hop : matchOperator (t :: rest) = some (op, rhs)) :
    matchFieldRelation (field ++ t :: rest) = some (field, op, rhs) := by
  rw [matchFieldRelation, matchField_append hfield (isFieldLetter_of_isSpace ht)]
  obtain ⟨c, tail, rfl, -, -⟩ := hfield
  show matchRelation (tail.length + 1) _ = _
  have hdrop : (c :: tail ++ t :: rest).drop (tail.length + 1) = t :: rest := by simp
  rw [matchRelation, hdrop, hop]
  simp

/-! ### The constraint of a relation -/

variable {stod : List Char → Option Double} {c : ParsedConstraint} {op : CompareOp}
  {v : ConstraintValue}

/-- `parse_rhs_value` mirrors the parser of rules, which sets a right side once. -/
theorem parseRhsValue_literal (hop : op ≠ .in ∧ op ≠ .notIn) (hliteral : c.rightLiteral = none)
    (hbound : c.rightBoundField = none) (hv : parseLiteral stod rhs = some v) :
    parseRhsValue stod rhs op c = some (setRhsValue c v) := by
  obtain ⟨fieldBinding, leftBinding, leftField, op', rightLiteral, rightBoundField, list,
    temporal, arith⟩ := c
  obtain rfl : rightLiteral = none := hliteral
  obtain rfl : rightBoundField = none := hbound
  rw [parseRhsValue, if_neg (not_or.mpr hop), hv, Option.map_some]
  cases v <;> rfl

/-- A text that begins with no parenthesis stands without parentheses around it. -/
theorem stripOuterParens_of_head {first : Char} {tail : List Char} (hmark : isMark first = false)
    (htail : tail ≠ []) (htight : Tight (first :: tail)) :
    stripOuterParens (first :: tail) = first :: tail := by
  have hwrapped : fullyWrapped (first :: tail) = false :=
    fullyWrapped_of_front (.plain hmark .nil) (List.cons_ne_nil first []) htail
  rw [stripOuterParens_eq, htight.trim, hwrapped, if_neg Bool.false_ne_true]

/-- A variable with a colon, in front of a field, or nothing. -/
inductive IsVariable : List Char → Option (List Char) → Prop
  | unbound : IsVariable [] none
  | bound {first : Char} {tail spaces spaces' : List Char} : isFieldStart first = true →
      tail.all (fun d ↦ d.isAlphanum || d = '_') = true → Blank spaces → Blank spaces' →
      IsVariable ('$' :: first :: (tail ++ (spaces ++ ':' :: spaces'))) (some ('$' :: first :: tail))

/-- What can stand in the name of a variable is no white space. -/
theorem nameLetter_of_isSpace (ht : isSpace t = true) : (t.isAlphanum || t = '_') = false := by
  have hletter := isFieldLetter_of_isSpace ht
  rw [isFieldLetter, Bool.or_eq_false_iff] at hletter
  exact hletter.1

variable {text : List Char} {name : Option (List Char)}

/-- The variable is taken off whole, and the field is left. -/
theorem matchBinding_bound {first : Char} {tail spaces spaces' : List Char}
    (hfirst : isFieldStart first = true)
    (htail : tail.all (fun d ↦ d.isAlphanum || d = '_') = true) (hspaces : Blank spaces)
    (hspaces' : Blank spaces') (htight : Tight text) :
    matchBinding ('$' :: first :: (tail ++ (spaces ++ ':' :: spaces')) ++ text) =
      some ('$' :: first :: tail, text) := by
  have hletters := List.all_eq_true.mp htail
  have htext : '$' :: first :: (tail ++ (spaces ++ ':' :: spaces')) ++ text =
      '$' :: first :: (tail ++ (spaces ++ ':' :: (spaces' ++ text))) := by simp
  -- the name ends at the first space, or at the colon
  have hend : ∀ d ∈ (spaces ++ ':' :: (spaces' ++ text)).head?,
      (d.isAlphanum || d = '_') = false := by
    intro d hd
    cases spaces with
    | nil =>
      obtain rfl := Option.some.inj hd
      rfl
    | cons s spaces =>
      obtain rfl := Option.some.inj hd
      exact nameLetter_of_isSpace (hspaces _ List.mem_cons_self)
  have htake : (tail ++ (spaces ++ ':' :: (spaces' ++ text))).takeWhile
      (fun d ↦ d.isAlphanum || d = '_') = tail := by
    rw [List.takeWhile_append_of_pos hletters]
    cases hrest : spaces ++ ':' :: (spaces' ++ text) with
    | nil => exact List.append_nil tail
    | cons d rest =>
      rw [hrest] at hend
      rw [List.takeWhile_cons_of_neg (by simp [hend d rfl]), List.append_nil]
  have hdrop : (tail ++ (spaces ++ ':' :: (spaces' ++ text))).dropWhile
      (fun d ↦ d.isAlphanum || d = '_') = spaces ++ ':' :: (spaces' ++ text) := by
    rw [List.dropWhile_append_of_pos hletters]
    cases hrest : spaces ++ ':' :: (spaces' ++ text) with
    | nil => rfl
    | cons d rest =>
      rw [hrest] at hend
      rw [List.dropWhile_cons_of_neg (by simp [hend d rfl])]
  have hcolon : (spaces ++ ':' :: (spaces' ++ text)).dropWhile isSpace =
      ':' :: (spaces' ++ text) := by
    rw [List.dropWhile_append_of_pos fun d hd ↦ hspaces d hd]
    rfl
  have hfield : (spaces' ++ text).dropWhile isSpace = text := by
    obtain ⟨d, rest, rfl, hd⟩ := htight.head
    rw [List.dropWhile_append_of_pos fun d hd ↦ hspaces' d hd,
      List.dropWhile_cons_of_neg (by simp [hd])]
  rw [htext, matchBinding, if_pos hfirst]
  simp only [htake, hdrop, hcolon, hfield]

/-- A relation is compiled to its variable, its field, its operator and what its right side stands
for. -/
theorem parseConstraintText_append {binding : List Char}
    (hname : IsVariable binding name) (hfield : IsField field) (ht : isSpace t = true)
    {rest : List Char} {op rhs : List Char} (hop : matchOperator (t :: rest) = some (op, rhs))
    (hnone : parseCompareOpCi op ≠ .none)
    (hlast : ∃ init d, rest = init ++ [d] ∧ isSpace d = false) :
    parseConstraintText stod (binding ++ (field ++ t :: rest)) =
      parseRhsValue stod rhs (parseCompareOpCi op)
        { fieldBinding := name.map String.ofList
          leftField := String.ofList field
          op := parseCompareOpCi op } := by
  have htext : Tight (field ++ t :: rest) := by
    obtain ⟨c, tail, heq, hc⟩ := hfield.tight.head
    obtain ⟨init, d, rfl, hd⟩ := hlast
    exact ⟨⟨c, tail ++ t :: (init ++ [d]), by rw [heq, List.cons_append], hc⟩,
      ⟨field ++ t :: init, d, by simp, hd⟩⟩
  have hrelation := matchFieldRelation_append hfield ht hop
  rw [parseConstraintText]
  cases hname with
  | unbound =>
    obtain ⟨c, tail, rfl, hc, htail⟩ := hfield
    have hmark : isMark c = false := by
      refine Bool.eq_false_iff.mpr fun hmark ↦ ?_
      simp only [isMark, Bool.or_eq_true, decide_eq_true_eq] at hmark
      rcases hmark with ((rfl | rfl) | rfl) | rfl <;> cases hc
    have hbinding : matchBinding (c :: tail ++ t :: rest) = none := by
      have hne : c ≠ '$' := by
        rintro rfl
        cases hc
      rw [List.cons_append, matchBinding]
      intro d rest heq
      exact absurd (List.cons.inj heq).1 hne
    have hstrip : stripOuterParens (c :: tail ++ t :: rest) = c :: tail ++ t :: rest :=
      stripOuterParens_of_head hmark
        (List.append_ne_nil_of_right_ne_nil tail (List.cons_ne_nil t rest)) htext
    simp only [List.nil_append, hstrip, hbinding, hrelation, relationConstraint, if_neg hnone]
  | @bound first tail spaces spaces' hfirst htail hspaces hspaces' =>
    have htight : Tight ('$' :: first :: (tail ++ (spaces ++ ':' :: spaces')) ++
        (field ++ t :: rest)) := by
      obtain ⟨init, d, heq, hd⟩ := htext.last
      exact ⟨⟨'$', _, rfl, rfl⟩,
        ⟨'$' :: first :: (tail ++ (spaces ++ ':' :: spaces')) ++ init, d, by
          rw [heq, List.append_assoc], hd⟩⟩
    have hstrip : stripOuterParens ('$' :: first :: (tail ++ (spaces ++ ':' :: spaces')) ++
        (field ++ t :: rest)) = '$' :: first :: (tail ++ (spaces ++ ':' :: spaces')) ++
          (field ++ t :: rest) :=
      stripOuterParens_of_head rfl (List.cons_ne_nil first _) htight
    have hbare : matchBareField (field ++ t :: rest) = none := by
      rw [matchBareField, matchField_append hfield (isFieldLetter_of_isSpace ht)]
      obtain ⟨init, d, rfl, hd⟩ := hlast
      have hall : (t :: (init ++ [d])).all isSpace = false :=
        List.all_eq_false.mpr ⟨d, by simp, by simp [hd]⟩
      show (if (t :: (init ++ [d])).all isSpace = true then some field else none) = none
      rw [hall, if_neg Bool.false_ne_true]
    have hbinding := matchBinding_bound hfirst htail hspaces hspaces' htext
    simp only [hstrip, hbinding, hbare, hrelation, Option.bind_some, relationConstraint,
      if_neg hnone]

/-- **A relation with a direct operator** is compiled as it is meant. -/
theorem parseConstraintText_relation (hfield : IsField field) (ht : isSpace t = true)
    (hop : operator ∈ directOperators) (hspaces : Blank spaces) (hs : isSpace s = true)
    (hspaces' : Blank spaces') (htight : Tight rhs) (hline : isRightSide rhs = true) :
    parseConstraintText stod
        (field ++ t :: (spaces ++ (operator.1 ++ s :: (spaces' ++ rhs)))) =
      parseRhsValue stod rhs operator.2
        { leftField := String.ofList field, op := operator.2 } := by
  obtain ⟨-, -, hparse, hnone, -⟩ := directOperators_first operator hop
  have hblank : Blank (t :: spaces) := by
    intro c hc
    rcases List.mem_cons.mp hc with rfl | hc
    · exact ht
    · exact hspaces c hc
  have hmatch : matchOperator (t :: (spaces ++ (operator.1 ++ s :: (spaces' ++ rhs)))) =
      some (operator.1, rhs) := matchOperator_direct hop hblank hs hspaces' htight hline
  obtain ⟨init, d, hrhs, hd⟩ := htight.last
  have hrelation : parseConstraintText stod _ = _ := parseConstraintText_append .unbound hfield ht hmatch
    (by rw [hparse]; exact hnone)
    ⟨spaces ++ (operator.1 ++ s :: (spaces' ++ init)), d, by simp [hrhs], hd⟩
  rwa [hparse] at hrelation

/-! ### The operators of compiled constraints -/

theorem op_of_parseRhsValue {c' : ParsedConstraint} (h : parseRhsValue stod rhs op c = some c') :
    c'.op = c.op := by
  rw [parseRhsValue] at h
  split_ifs at h
  · obtain ⟨values, -, rfl⟩ := Option.map_eq_some_iff.mp h
    rfl
  · obtain ⟨literal, -, rfl⟩ := Option.map_eq_some_iff.mp h
    cases literal with
    | string s =>
      dsimp only
      split_ifs <;> rfl
    | _ => rfl

theorem parseCompareOpCi_of_mem (h : ∃ op ∈ operatorTexts,
    lowerCase text = lowerCase op) : parseCompareOpCi text = .none ∨
      parseCompareOpCi text ∈ directOperators.map Prod.snd := by
  obtain ⟨op, hop, heq⟩ := h
  have hall : ∀ op ∈ operatorTexts, parseCompareOp (lowerCase op) = .none ∨
      parseCompareOp (lowerCase op) ∈ directOperators.map Prod.snd := by decide
  rw [parseCompareOpCi, heq]
  exact hall op hop

theorem lowerCase_of_startsWithCi {text word : List Char} (h : startsWithCi text word = true) :
    lowerCase (text.take word.length) = lowerCase word :=
  eq_of_beq (Bool.and_eq_true_iff.mp h).2

theorem matchOperator_eq_some {op rhs : List Char}
    (h : matchOperator text = some (op, rhs)) :
    ∃ op' ∈ operatorTexts, lowerCase op = lowerCase op' := by
  obtain ⟨op', hop', hsome⟩ := List.exists_of_findSome?_eq_some h
  dsimp only at hsome
  split_ifs at hsome with hfound
  obtain ⟨rfl, -⟩ := Prod.mk.inj (Option.some.inj hsome)
  exact ⟨op', hop', lowerCase_of_startsWithCi (Bool.and_eq_true_iff.mp hfound).1⟩

theorem matchRelation_eq_some {length : ℕ} {relation}
    (h : matchRelation length text = some relation) :
    ∃ op' ∈ operatorTexts, lowerCase relation.2.1 = lowerCase op' := by
  induction length with
  | zero => cases h
  | succ length ih =>
    rw [matchRelation] at h
    split at h
    · next op rhs hop =>
      obtain rfl := Option.some.inj h
      exact matchOperator_eq_some hop
    · exact ih h

theorem op_of_relationConstraint {relation}
    (hrelation : ∃ op' ∈ operatorTexts, lowerCase relation.2.1 = lowerCase op')
    (h : relationConstraint stod name relation = some c) :
    c.op ∈ directOperators.map Prod.snd := by
  rw [relationConstraint] at h
  split_ifs at h with hnone
  rw [op_of_parseRhsValue h]
  exact (parseCompareOpCi_of_mem hrelation).resolve_left hnone

theorem matchFieldRelation_eq_some {relation}
    (h : matchFieldRelation text = some relation) :
    ∃ op' ∈ operatorTexts, lowerCase relation.2.1 = lowerCase op' := by
  rw [matchFieldRelation] at h
  split at h
  · exact matchRelation_eq_some h
  · cases h

/-- A constraint that is compiled has no operator or a direct one. -/
theorem op_of_parseConstraintText
    (h : parseConstraintText stod text = some c) :
    c.op = .none ∨ c.op ∈ directOperators.map Prod.snd := by
  rw [parseConstraintText] at h
  split at h
  · split at h
    · obtain rfl := Option.some.inj h
      exact .inl rfl
    · obtain ⟨relation, hrelation, hc⟩ := Option.bind_eq_some_iff.mp h
      exact .inr (op_of_relationConstraint (matchFieldRelation_eq_some hrelation) hc)
  · split at h
    · next relation hrelation =>
      exact .inr (op_of_relationConstraint (matchFieldRelation_eq_some hrelation) h)
    · have heq : CompareOp.eq ∈ directOperators.map Prod.snd := by decide
      split at h
      · obtain rfl := Option.some.inj h
        exact .inr heq
      · obtain ⟨field, -, rfl⟩ := Option.map_eq_some_iff.mp h
        exact .inr heq

/-- The operators that begin others. -/
def keyOperators : List (List Char × CompareOp) :=
  [("contains".toList, .contains), ("not contains".toList, .notContains)]

/-- An operator for keys is taken for the operator that it begins with. -/
theorem parseConstraintText_containsKey {binding : List Char}
    (hname : IsVariable binding name) (hfield : IsField field) (ht : isSpace t = true)
    (hspaces : Blank spaces) (hop : operator ∈ keyOperators)
    (hlast : ∃ init d, rhs = init ++ [d] ∧ isSpace d = false)
    (hline : isRightSide ("Key".toList ++ rhs) = true) :
    parseConstraintText stod
        (binding ++ (field ++ t :: (spaces ++ (operator.1 ++ ("Key".toList ++ rhs))))) =
      parseRhsValue stod ("Key".toList ++ rhs) operator.2
        { fieldBinding := name.map String.ofList
          leftField := String.ofList field
          op := operator.2 } := by
  have hdirect : operator ∈ directOperators := by
    have hall : ∀ op ∈ keyOperators, op ∈ directOperators := by decide
    exact hall operator hop
  obtain ⟨hmem, -, hparse, hnone, hhead⟩ := directOperators_first operator hdirect
  have hblank : Blank (t :: spaces) := by
    intro c hc
    rcases List.mem_cons.mp hc with rfl | hc
    · exact ht
    · exact hspaces c hc
  have hfirst : ∀ op' ∈ operatorTexts.takeWhile (· ≠ operator.1),
      startsWithCi (operator.1 ++ ("Key".toList ++ rhs)) op' = false := by
    have hall : ∀ op ∈ keyOperators,
        (operatorTexts.takeWhile (· ≠ op.1)).all (differs op.1) = true := by decide
    exact fun op' hop' ↦
      startsWithCi_of_differs (List.all_eq_true.mp (hall operator hop) op' hop')
  have hmatch : matchOperator (t :: (spaces ++ (operator.1 ++ ("Key".toList ++ rhs)))) =
      some (operator.1, "Key".toList ++ rhs) :=
    matchOperator_first hmem hhead hblank hfirst hline
  obtain ⟨init, d, hrhs, hd⟩ := hlast
  have hrelation : parseConstraintText stod _ = _ := parseConstraintText_append hname hfield ht hmatch
    (by rw [hparse]; exact hnone)
    ⟨spaces ++ (operator.1 ++ ("Key".toList ++ init)), d, by simp [hrhs], hd⟩
  rwa [hparse] at hrelation

/-- White space around a constraint is no concern. -/
theorem parseConstraintText_padded (hspaces : Blank spaces)
    (hspaces' : Blank spaces') (htight : Tight text) :
    parseConstraintText stod (spaces ++ text ++ spaces') = parseConstraintText stod text := by
  rw [parseConstraintText, parseConstraintText, stripOuterParens_padded hspaces hspaces' htight]

/-- A relation with a variable or without begins and ends with no white space. -/
theorem tight_relation {binding : List Char}
    (hname : IsVariable binding name) (hfield : IsField field) {rest : List Char}
    (hlast : ∃ init d, rest = init ++ [d] ∧ isSpace d = false) :
    Tight (binding ++ (field ++ rest)) := by
  obtain ⟨init, d, rfl, hd⟩ := hlast
  refine ⟨?_, binding ++ (field ++ init), d, by simp, hd⟩
  cases hname with
  | unbound =>
    obtain ⟨c, tail, heq, hc⟩ := hfield.tight.head
    exact ⟨c, tail ++ (init ++ [d]), by rw [heq]; rfl, hc⟩
  | bound => exact ⟨'$', _, rfl, rfl⟩

/-- **The operators of the direct path**: every constraint that is compiled from a text has one of
twelve operators or none, and a relation with `containsKey` or `not containsKey` becomes one with
`contains` or `not contains` whose right side begins with what is left of the operator. -/
theorem compiled_operators (stod : List Char → Option Double) :
    (∀ text c, parseConstraintText stod text = some c →
      c.op = .none ∨ c.op ∈ directOperators.map Prod.snd) ∧
    ∀ operator ∈ keyOperators, ∀ front binding name field t spaces rhs back, Blank front →
      IsVariable binding name → IsField field → isSpace t = true → Blank spaces →
      (∃ init d, rhs = init ++ [d] ∧ isSpace d = false) →
      isRightSide ("Key".toList ++ rhs) = true → Blank back →
      parseConstraintText stod
          (front ++ (binding ++ (field ++ t :: (spaces ++ (operator.1 ++ ("Key".toList ++ rhs))))) ++
            back) =
        parseRhsValue stod ("Key".toList ++ rhs) operator.2
          { fieldBinding := name.map String.ofList
            leftField := String.ofList field
            op := operator.2 } := by
  refine ⟨fun _ _ h ↦ op_of_parseConstraintText h, ?_⟩
  intro operator hop front binding name field t spaces rhs back hfront hname hfield ht hspaces hlast
    hline hback
  have htight : Tight
      (binding ++ (field ++ t :: (spaces ++ (operator.1 ++ ("Key".toList ++ rhs))))) := by
    obtain ⟨init, d, rfl, hd⟩ := hlast
    exact tight_relation hname hfield
      ⟨t :: (spaces ++ (operator.1 ++ ("Key".toList ++ init))), d, by simp, hd⟩
  rw [parseConstraintText_padded hfront hback htight,
    parseConstraintText_containsKey hname hfield ht hspaces hop hlast hline]

/-- `$v : tags not containsKey "a"` asks whether `tags` contains the text `Key "a"`. -/
theorem compiled_operators_tags :
    parseConstraintText (fun _ ↦ none) " $v : tags not containsKey \"a\" ".toList =
      some
        { fieldBinding := some "$v"
          leftField := "tags"
          op := .notContains
          rightLiteral := some (.string "Key \"a\"") } := by
  have hspace : Blank " ".toList := by
    intro c hc
    obtain rfl := List.mem_singleton.mp hc
    rfl
  have hname : IsVariable "$v : ".toList (some "$v".toList) :=
    @IsVariable.bound 'v' [] " ".toList " ".toList rfl rfl hspace hspace
  exact (compiled_operators fun _ ↦ none).2 ("not contains".toList, .notContains) (by decide)
    " ".toList "$v : ".toList (some "$v".toList) "tags".toList ' ' [] " \"a\"".toList " ".toList
    hspace hname ⟨'t', "ags".toList, rfl, rfl, rfl⟩ rfl blank_nil ⟨" \"a".toList, '"', rfl, rfl⟩
    (by decide) hspace

end Operators

end DecisionTable

end RulesForge
