import RulesForge.Engine.TextReading
import RulesForge.Parser.RhsExpressions

/-!
# The texts of right-hand sides

The parser reads an expression from its tokens and keeps a text, and the executor reads the text
again. Here is what the text is made of: the tokens with which an expression is stored, the
conditions under which the executor can read them, and how its scanners go over the text of a term.
-/

namespace RulesForge

/-! ### Which expressions are read again -/

def isAdditive (type : RhsTokenType) : Bool :=
  type = .plus || type = .minus

def isMultiplicative (type : RhsTokenType) : Bool :=
  type = .star || type = .slash

def wordToken (word : RhsToken) (fields : List (List Char)) : TextToken :=
  .word (word.text ++ fields.flatMap ('.' :: ·))

def parenthesised (tokens : List TextToken) : List TextToken :=
  .symbol ['('] :: (tokens ++ [.symbol [')']])

def callTokens (name : List Char) (args : List (List TextToken)) : List TextToken :=
  if name = "concat".toList then parenthesised (joinTokens (.symbol ['+']) args)
  else .word (storedName name) :: parenthesised (joinTokens (.symbol [',']) args)

mutual

/-- The tokens of the text that is kept: the parser renames some functions, writes `concat` as a
sum, and puts the parts of a ternary into parentheses. -/
def RhsExpr.storedTokens : RhsExpr → List TextToken
  | .ternary condition trueExpr falseExpr =>
    parenthesised condition.storedTokens ++ .symbol ['?'] ::
      (parenthesised trueExpr.storedTokens ++ .symbol [':'] ::
        parenthesised falseExpr.storedTokens)
  | .binary op lhs rhs => lhs.storedTokens ++ .symbol op.text :: rhs.storedTokens
  | .paren expr => parenthesised expr.storedTokens
  | .path word fields => [wordToken word fields]
  | .number token => [.word token.text]
  | .call name args => callTokens name (storedTokensOf args)
  | .string letters => [.string letters]

def storedTokensOf : List RhsExpr → List (List TextToken)
  | [] => []
  | expr :: exprs => expr.storedTokens :: storedTokensOf exprs

end

mutual

/-- What holds of an expression and of every expression in it. -/
def RhsExpr.Each (p : RhsExpr → Prop) : RhsExpr → Prop
  | .ternary condition trueExpr falseExpr =>
    p (.ternary condition trueExpr falseExpr) ∧
      condition.Each p ∧ trueExpr.Each p ∧ falseExpr.Each p
  | .binary op lhs rhs => p (.binary op lhs rhs) ∧ lhs.Each p ∧ rhs.Each p
  | .paren expr => p (.paren expr) ∧ expr.Each p
  | .path word fields => p (.path word fields)
  | .number token => p (.number token)
  | .call name args => p (.call name args) ∧ EachOf p args
  | .string letters => p (.string letters)

def EachOf (p : RhsExpr → Prop) : List RhsExpr → Prop
  | [] => True
  | expr :: exprs => expr.Each p ∧ EachOf p exprs

end

/-- An operator that the executor knows. -/
def RhsExpr.Arithmetic : RhsExpr → Prop
  | .ternary _ _ _ => False
  | .binary op _ _ => isAdditive op.type = true ∨ isMultiplicative op.type = true
  | _ => True

/-- An expression that begins with a number with a sign. -/
def RhsExpr.Signed : RhsExpr → Prop
  | .number token => token.text.head? = some '-'
  | .binary _ lhs _ => lhs.Signed
  | _ => False

/-- What follows `*` or `/` has no sign. -/
def RhsExpr.Steady : RhsExpr → Prop
  | .binary op _ rhs => op.text = ['*'] ∨ op.text = ['/'] → ¬rhs.Signed
  | _ => True

/-- The letters of a string are neither quotes nor backslashes. -/
def RhsExpr.Clean : RhsExpr → Prop
  | .string letters => ∀ c ∈ letters, c ≠ '"' ∧ c ≠ '\\'
  | _ => True

/-! ### The letters of words -/

/-- A letter of a variable, a name or a number. -/
def isWordLetter (c : Char) : Bool :=
  isNameLetter c || c = '$' || c = '.'

theorem isNameLetter_toNat {c : Char} (h : isNameLetter c = true) : 48 ≤ c.toNat := by
  rcases Bool.or_eq_true_iff.mp h with hletter | hline
  · exact le_toNat_of_isAlphanum hletter
  · rw [of_decide_eq_true hline]
    decide

theorem isWordLetter_toNat {c : Char} (h : isWordLetter c = true) : 36 ≤ c.toNat := by
  simp only [isWordLetter, Bool.or_eq_true, decide_eq_true_eq] at h
  rcases h with (h | rfl) | rfl
  · have hle := isNameLetter_toNat h
    omega
  · decide
  · decide

theorem isWordLetter_plain {c : Char} (h : isWordLetter c = true) :
    isMark c = false ∧ isSpace c = false ∧ (∀ pass, isOperator pass c = false) ∧ c ≠ ',' ∧
      isPassed c = true := by
  have hne : ∀ d : Char, isWordLetter d = false → c ≠ d := by
    rintro d hd rfl
    rw [h] at hd
    contradiction
  have hmark : isMark c = false := by
    simp [isMark, hne '"' rfl, hne '\'' rfl, hne '(' rfl, hne ')' rfl]
  refine ⟨hmark, ?_, fun pass ↦ ?_, hne ',' rfl, isPassed_of_isMark_not hmark ?_⟩
  · have hle := isWordLetter_toNat h
    simp only [isSpace, Bool.or_eq_false_iff, decide_eq_false_iff_not, Bool.and_eq_false_imp,
      decide_eq_true_eq]
    exact ⟨hne ' ' rfl, fun _ ↦ by omega⟩
  · unfold isOperator
    split
    · simp [hne '+' rfl, hne '-' rfl]
    · simp [hne '*' rfl, hne '/' rfl]
  · simp [isLogical, hne '=' rfl, hne '<' rfl, hne '>' rfl, hne '&' rfl, hne '|' rfl]

/-- Letters of a word, some of them. -/
structure IsWordText (text : List Char) : Prop where
  ne_nil : text ≠ []
  letters : ∀ c ∈ text, isWordLetter c = true

namespace IsWordText

variable {text : List Char}

theorem level (h : IsWordText text) : Level text :=
  .of_plain fun c hc ↦ (isWordLetter_plain (h.letters c hc)).1

theorem tight (h : IsWordText text) : Tight text :=
  .of_forall h.ne_nil fun c hc ↦ (isWordLetter_plain (h.letters c hc)).2.1

end IsWordText

/-- The text of a number: a word, or one behind a sign. -/
def IsNumberText (text : List Char) : Prop :=
  IsWordText text ∨ ∃ digits, text = '-' :: digits ∧ IsWordText digits

/-- A name: letters that begin one, and letters of names. -/
structure IsNameText (text : List Char) : Prop where
  exists_cons : ∃ c tail, text = c :: tail ∧ isNameStart c = true
  letters : ∀ c ∈ text, isNameLetter c = true

namespace IsNameText

variable {name : List Char}

theorem word (h : IsNameText name) : IsWordText name := by
  obtain ⟨c, tail, rfl, -⟩ := h.exists_cons
  exact ⟨List.cons_ne_nil c tail, fun d hd ↦ by rw [isWordLetter, h.letters d hd]; rfl⟩

theorem stored (h : IsNameText name) : IsNameText (storedName name) := by
  unfold storedName
  split
  · exact ⟨⟨'u', "pper".toList, rfl, rfl⟩, forall_mem_of_all rfl⟩
  split
  · exact ⟨⟨'l', "ower".toList, rfl, rfl⟩, forall_mem_of_all rfl⟩
  · exact h

end IsNameText

/-! ### Texts that can be read -/

/-- What is asked of an expression and of its words so that its text can be read. -/
def RhsExpr.Readable : RhsExpr → Prop
  | .ternary _ _ _ => False
  | .binary op _ _ => ∃ c, op.text = [c] ∧ (isOperator 0 c = true ∨ isOperator 1 c = true)
  | .paren _ => True
  | .path word fields => IsWordText (word.text ++ fields.flatMap ('.' :: ·))
  | .number token => IsNumberText token.text
  | .call name _ => IsNameText name
  | .string letters => ∀ c ∈ letters, c ≠ '"' ∧ c ≠ '\\'

/-! ### The words that the lexer reads -/

section Words

open RhsLexer

variable {t : RhsToken} {text : List Char}

/-- The text of a symbol. -/
theorem text_of_symbol (hwf : WellFormed t) {type : RhsTokenType}
    (htext : symbolText type = some text) (ht : t.type = type) : t.text = text := by
  rw [eq_symbolToken hwf htext ht, symbolToken, htext]
  rfl

theorem isNameText_of_identifier (hwf : WellFormed ⟨.identifier, text⟩) : IsNameText text := by
  obtain ⟨c, letters, rfl, hc, hletters, -⟩ := hwf
  exact ⟨⟨c, letters, rfl, hc⟩,
    List.forall_mem_cons.mpr ⟨isNameLetter_of_isNameStart hc, hletters⟩⟩

theorem isWordText_of_digits {digits : List Char} (hne : digits ≠ [])
    (hdigits : ∀ c ∈ digits, c.isDigit = true) : IsWordText digits where
  ne_nil := hne
  letters c hc := by
    rw [isWordLetter, isNameLetter, Char.isAlphanum, hdigits c hc, Bool.or_true]
    rfl

theorem isWordText_append {text' : List Char} (h : IsWordText text)
    (h' : ∀ c ∈ text', isWordLetter c = true) : IsWordText (text ++ text') where
  ne_nil := List.append_ne_nil_of_left_ne_nil h.ne_nil text'
  letters := List.forall_mem_append.mpr ⟨h.letters, h'⟩

/-- Letters behind the digits of a number. -/
theorem isNumberText_of_isNumeral (h : IsNumeral text) {tail : List Char}
    (htail : ∀ c ∈ tail, isWordLetter c = true) : IsNumberText (text ++ tail) := by
  obtain ⟨sign, digits, rfl, hsign, hne, hdigits⟩ := h.exists_digits
  have hword := isWordText_append (isWordText_of_digits hne hdigits) htail
  rcases hsign with rfl | rfl
  · exact .inl hword
  · exact .inr ⟨digits ++ tail, rfl, hword⟩

theorem isNumberText_of_wellFormed (hwf : WellFormed t)
    (ht : t.type = .integer ∨ t.type = .double) : IsNumberText t.text := by
  unfold WellFormed at hwf
  rcases ht with ht | ht <;> rw [ht] at hwf
  · rw [← List.append_nil t.text]
    exact isNumberText_of_isNumeral hwf fun c hc ↦ absurd hc List.not_mem_nil
  · obtain ⟨digits, fraction, htext, hdigits, hfraction⟩ := hwf
    rw [htext]
    refine isNumberText_of_isNumeral hdigits (List.forall_mem_cons.mpr ⟨rfl, fun c hc ↦ ?_⟩)
    rw [isWordLetter, isNameLetter, Char.isAlphanum, hfraction c hc, Bool.or_true]
    rfl

/-- A variable, or a name, with the names behind it. -/
theorem isWordText_path (hwf : WellFormed t)
    (ht : t.type = .variable ∨ t.type = .identifier) {fields : List (List Char)}
    (hfields : ∀ field ∈ fields, IsNameText field) :
    IsWordText (t.text ++ fields.flatMap ('.' :: ·)) := by
  refine isWordText_append ?_ fun c hc ↦ ?_
  · obtain ⟨type, text⟩ := t
    rcases ht with rfl | rfl
    · obtain ⟨letters, rfl, hletters⟩ := hwf
      refine ⟨List.cons_ne_nil _ _, List.forall_mem_cons.mpr ⟨rfl, fun c hc ↦ ?_⟩⟩
      rw [isWordLetter, hletters c hc]
      rfl
    · exact (isNameText_of_identifier hwf).word
  · obtain ⟨field, hfield, hc⟩ := List.mem_flatMap.mp hc
    rcases List.mem_cons.mp hc with rfl | hc
    · rfl
    · rw [isWordLetter, (hfields field hfield).letters c hc]
      rfl

theorem argTokens_cons_of_ne_nil (arg : RhsExpr) {args : List RhsExpr} (h : args ≠ []) :
    argTokens (arg :: args) = arg.tokens ++ symbolToken .comma :: argTokens args := by
  obtain ⟨arg', args', rfl⟩ := List.exists_cons_of_ne_nil h
  exact argTokens_cons_cons arg arg' args'

/-- The tokens of the first argument and those of the others are tokens of the arguments. -/
theorem mem_argTokens_cons {arg : RhsExpr} {args : List RhsExpr}
    (h : t ∈ arg.tokens ∨ t ∈ argTokens args) : t ∈ argTokens (arg :: args) := by
  by_cases hnil : args = []
  · rw [hnil] at h ⊢
    exact h.resolve_right List.not_mem_nil
  · rw [argTokens_cons_of_ne_nil arg hnil, List.mem_append, List.mem_cons]
    tauto

mutual

/-- **What the parser reads** can be read again, if the executor knows its operators and its
strings are clean. -/
theorem RhsExpr.readable : ∀ (expr : RhsExpr), expr.Each Arithmetic → expr.Each Clean →
    expr.Typed → (∀ t ∈ expr.tokens, WellFormed t) → expr.Each Readable
  | .ternary _ _ _, ⟨harithmetic, _⟩, _, _, _ => harithmetic.elim
  | .binary op lhs rhs, ⟨hop, hlhs, hrhs⟩, ⟨_, hclean, hclean'⟩, ⟨_, htyped, htyped'⟩, hwf => by
    have hwf' : ∀ t ∈ lhs.tokens ++ op :: rhs.tokens, WellFormed t := hwf
    rw [List.forall_mem_append, List.forall_mem_cons] at hwf'
    obtain ⟨hwfLhs, hwfOp, hwfRhs⟩ := hwf'
    refine ⟨?_, RhsExpr.readable lhs hlhs hclean htyped hwfLhs,
      RhsExpr.readable rhs hrhs hclean' htyped' hwfRhs⟩
    simp only [Arithmetic, isAdditive, isMultiplicative, Bool.or_eq_true,
      decide_eq_true_eq] at hop
    rcases hop with (hop | hop) | hop | hop
    · exact ⟨'+', text_of_symbol hwfOp rfl hop, .inl rfl⟩
    · exact ⟨'-', text_of_symbol hwfOp rfl hop, .inl rfl⟩
    · exact ⟨'*', text_of_symbol hwfOp rfl hop, .inr rfl⟩
    · exact ⟨'/', text_of_symbol hwfOp rfl hop, .inr rfl⟩
  | .paren expr, ⟨_, hexpr⟩, ⟨_, hclean⟩, htyped, hwf =>
    ⟨trivial, RhsExpr.readable expr hexpr hclean htyped fun t ht ↦
      hwf t (List.mem_cons_of_mem _ (List.mem_append_left _ ht))⟩
  | .path word fields, _, _, hword, hwf => by
    refine isWordText_path (hwf word List.mem_cons_self) hword fun field hfield ↦ ?_
    refine isNameText_of_identifier (hwf _ (List.mem_cons_of_mem word ?_))
    exact List.mem_flatMap.mpr ⟨field, hfield, List.mem_cons_of_mem _ List.mem_cons_self⟩
  | .number token, _, _, htoken, hwf =>
    isNumberText_of_wellFormed (hwf token List.mem_cons_self) htoken
  | .call name args, ⟨_, hargs⟩, ⟨_, hclean⟩, htyped, hwf =>
    ⟨isNameText_of_identifier (hwf _ List.mem_cons_self),
      RhsExpr.readableOf args hargs hclean htyped fun t ht ↦ hwf t (List.mem_cons_of_mem _
        (List.mem_cons_of_mem _ (List.mem_append_left _ ht)))⟩
  | .string _, _, hletters, _, _ => hletters

theorem RhsExpr.readableOf : ∀ (args : List RhsExpr), EachOf Arithmetic args →
    EachOf Clean args → AllTyped args → (∀ t ∈ argTokens args, WellFormed t) →
    EachOf Readable args
  | [], _, _, _, _ => trivial
  | arg :: args, ⟨harg, hargs⟩, ⟨hclean, hcleanOf⟩, ⟨htyped, hallTyped⟩, hwf =>
    ⟨RhsExpr.readable arg harg hclean htyped fun t ht ↦ hwf t (mem_argTokens_cons (.inl ht)),
      RhsExpr.readableOf args hargs hcleanOf hallTyped fun t ht ↦
        hwf t (mem_argTokens_cons (.inr ht))⟩

end

end Words

/-! ### The texts of readable expressions -/

theorem isOperator_plain {pass : ℕ} {c : Char} (h : isOperator pass c = true) :
    isMark c = false ∧ isSpace c = false ∧ c ≠ ',' ∧ isPassed c = true := by
  unfold isOperator at h
  split at h
  · simp only [Bool.or_eq_true, decide_eq_true_eq] at h
    rcases h with rfl | rfl <;> decide
  · simp only [Bool.or_eq_true, decide_eq_true_eq] at h
    rcases h with rfl | rfl <;> decide

/-- The letters between two operands. -/
theorem level_operator {c : Char} (hc : isMark c = false) {text : List Char} (h : Level text) :
    Level (' ' :: c :: ' ' :: text) :=
  .plain rfl (.plain hc (.plain rfl h))

theorem level_intercalate {separator : List Char} (hseparator : Level separator)
    {texts : List (List Char)} (h : ∀ text ∈ texts, Level text) :
    Level (separator.intercalate texts) := by
  induction texts with
  | nil => exact .nil
  | cons text texts ih =>
    have hrest := ih fun text' htext' ↦ h text' (List.mem_cons_of_mem text htext')
    cases texts with
    | nil =>
      rw [List.intercalate_singleton]
      exact h text List.mem_cons_self
    | cons text' texts =>
      rw [List.intercalate_cons_cons]
      exact ((h text List.mem_cons_self).append hseparator).append hrest

theorem tight_parenthesised (text : List Char) : Tight ('(' :: text ++ [')']) :=
  ⟨⟨'(', text ++ [')'], rfl, rfl⟩, ⟨'(' :: text, ')', rfl, rfl⟩⟩

mutual

/-- **The text of a readable expression** is level and tight. -/
theorem RhsExpr.level_tight : ∀ (expr : RhsExpr), expr.Each Readable →
    Level expr.text ∧ Tight expr.text
  | .binary op lhs rhs, ⟨⟨c, hop, hc⟩, hlhs, hrhs⟩ => by
    obtain ⟨hlevel, htight⟩ := RhsExpr.level_tight lhs hlhs
    obtain ⟨hlevel', htight'⟩ := RhsExpr.level_tight rhs hrhs
    have hmark : isMark c = false := by
      rcases hc with hc | hc <;> exact (isOperator_plain hc).1
    have htext : (RhsExpr.binary op lhs rhs).text = lhs.text ++ [' ', c, ' '] ++ rhs.text := by
      rw [RhsExpr.text, hop]
      simp
    rw [htext]
    refine ⟨?_, htight.append htight' _⟩
    rw [List.append_assoc]
    exact hlevel.append (level_operator hmark hlevel')
  | .paren expr, ⟨_, hexpr⟩ => by
    rw [RhsExpr.text]
    exact ⟨(RhsExpr.level_tight expr hexpr).1.parenthesised, tight_parenthesised _⟩
  | .path _ _, hword => ⟨IsWordText.level hword, IsWordText.tight hword⟩
  | .number token, htoken => by
    rw [RhsExpr.text]
    rcases htoken with hword | ⟨digits, htext, hword⟩
    · exact ⟨hword.level, hword.tight⟩
    · rw [htext]
      obtain ⟨init, c, hlast, hc⟩ := hword.tight.last
      exact ⟨.plain rfl hword.level, ⟨'-', digits, rfl, rfl⟩,
        ⟨'-' :: init, c, by rw [hlast]; rfl, hc⟩⟩
  | .call name args, ⟨hname, hargs⟩ => by
    have hlevel := RhsExpr.level_tightOf args hargs
    rw [RhsExpr.text]
    unfold callText
    split
    · exact ⟨(level_intercalate (.of_plain (forall_mem_of_all rfl))
        fun text htext ↦ (hlevel text htext).1).parenthesised, tight_parenthesised _⟩
    · have hcomma : Level ", ".toList := .of_plain (forall_mem_of_all rfl)
      have hpair := (level_intercalate hcomma
        fun text htext ↦ (hlevel text htext).1).parenthesised
      have htight := hname.stored.word.tight.append
        (tight_parenthesised (", ".toList.intercalate (RhsExpr.texts args))) []
      rw [List.append_nil] at htight
      rw [List.append_assoc]
      exact ⟨hname.stored.word.level.append hpair, htight⟩
  | .string letters, hletters => by
    rw [RhsExpr.text]
    exact ⟨.quoted hletters .nil, ⟨'"', letters ++ ['"'], rfl, rfl⟩,
      ⟨'"' :: letters, '"', rfl, rfl⟩⟩

theorem RhsExpr.level_tightOf : ∀ (args : List RhsExpr), EachOf Readable args →
    ∀ text ∈ RhsExpr.texts args, Level text ∧ Tight text
  | [], _, _, htext => absurd htext List.not_mem_nil
  | arg :: args, ⟨harg, hargs⟩, text, htext => by
    rcases List.mem_cons.mp htext with rfl | htext
    · exact RhsExpr.level_tight arg harg
    · exact RhsExpr.level_tightOf args hargs text htext

end

/-! ### Terms -/

/-- An expression without an operator at its top. -/
def RhsExpr.IsTerm : RhsExpr → Prop
  | .ternary _ _ _ => False
  | .binary _ _ _ => False
  | _ => True

section Terms

variable {wanted : List Char → Char → Bool} {before rest : List Char} {term : RhsExpr}

theorem IsWordText.passed {text : List Char} (h : IsWordText text)
    (hwanted : ∀ c, isWordLetter c = true → ∀ before, wanted before c = false) :
    splitAtTop wanted {} before (text ++ rest) = splitAtTop wanted {} (before ++ text) rest :=
  splitAtTop_plain (fun c hc ↦ (isWordLetter_plain (h.letters c hc)).1)
    fun c hc before ↦ hwanted c (h.letters c hc) before

theorem passed_parenthesised {inner : List Char} (h : Level inner) :
    splitAtTop wanted {} before ('(' :: inner ++ [')'] ++ rest) =
      splitAtTop wanted {} (before ++ ('(' :: inner ++ [')'])) rest := by
  have hpair := @Level.splitAtTop_pair wanted before inner rest 0 h le_rfl
  rw [List.append_assoc]
  exact hpair

/-- The arguments of a call, between parentheses. -/
theorem level_args {name : List Char} {args : List RhsExpr}
    (h : (RhsExpr.call name args).Each RhsExpr.Readable) {separator : List Char}
    (hseparator : Level separator) :
    Level (separator.intercalate (RhsExpr.texts args)) :=
  level_intercalate hseparator fun text htext ↦ (RhsExpr.level_tightOf args h.2 text htext).1

/-- **A term is passed** where no letter of a word is wanted, and not its sign if it has one. -/
theorem RhsExpr.passed (h : term.Each Readable) (hterm : term.IsTerm)
    (hwanted : ∀ c, isWordLetter c = true → ∀ before, wanted before c = false)
    (hsign : term.Signed → wanted before '-' = false) :
    splitAtTop wanted {} before (term.text ++ rest) =
      splitAtTop wanted {} (before ++ term.text) rest := by
  cases term with
  | ternary => exact absurd hterm not_false
  | binary => exact absurd hterm not_false
  | paren expr =>
    rw [RhsExpr.text]
    exact passed_parenthesised (RhsExpr.level_tight expr h.2).1
  | path word fields => exact IsWordText.passed h hwanted
  | number token =>
    rw [RhsExpr.text]
    rcases h with hword | ⟨digits, htext, hword⟩
    · exact hword.passed hwanted
    · have hminus : wanted before '-' = false := hsign (by rw [RhsExpr.Signed, htext]; rfl)
      rw [htext, List.cons_append, splitAtTop_cons_of_not (by rw [hminus, Bool.and_false])]
      show splitAtTop wanted {} _ _ = _
      rw [hword.passed hwanted, List.append_assoc]
      rfl
  | call name args =>
    rw [RhsExpr.text]
    unfold callText
    split
    · exact passed_parenthesised (level_args h (.of_plain (forall_mem_of_all rfl)))
    · have hpair := @passed_parenthesised wanted (before ++ storedName name) rest _
        (@level_args name args h ", ".toList (.of_plain (forall_mem_of_all rfl)))
      rw [List.append_assoc _ _ [')'], List.append_assoc, h.1.stored.word.passed hwanted]
      show splitAtTop wanted {} _ ('(' :: _ ++ [')'] ++ rest) = _
      rw [hpair, List.append_assoc]
  | string letters =>
    have hquoted := @Level.splitAtTop_quoted wanted before letters rest 0 h
    rw [RhsExpr.text, List.append_assoc]
    exact hquoted

/-- A term with something behind it is not one pair of parentheses. -/
theorem RhsExpr.not_wrapping (h : term.Each Readable) (hterm : term.IsTerm)
    (hrest : rest ≠ []) : hasWrappingParentheses (term.text ++ rest) = false := by
  have hword : ∀ {text : List Char}, IsWordText text →
      hasWrappingParentheses (text ++ rest) = false := by
    intro text hword
    obtain ⟨c, tail, rfl⟩ := List.exists_cons_of_ne_nil hword.ne_nil
    exact not_wrapping_of_head (isWordLetter_plain (hword.letters c List.mem_cons_self)).1 _
  have hpair : ∀ {inner : List Char}, Level inner →
      hasWrappingParentheses ('(' :: inner ++ [')'] ++ rest) = false := by
    intro inner hinner
    rw [List.append_assoc]
    exact Level.hasWrappingParentheses_pair_append hinner hrest
  cases term with
  | ternary => exact absurd hterm not_false
  | binary => exact absurd hterm not_false
  | paren expr =>
    rw [RhsExpr.text]
    exact hpair (RhsExpr.level_tight expr h.2).1
  | path word fields => exact hword h
  | number token =>
    rw [RhsExpr.text]
    rcases h with h | ⟨digits, htext, -⟩
    · exact hword h
    · rw [htext]
      exact not_wrapping_of_head rfl _
  | call name args =>
    rw [RhsExpr.text]
    unfold callText
    split
    · exact hpair (level_args h (.of_plain (forall_mem_of_all rfl)))
    · obtain ⟨c, tail, hcons, -⟩ := h.1.stored.exists_cons
      rw [hcons]
      refine not_wrapping_of_head ?_ _
      have hletter := h.1.stored.word.letters c (by rw [hcons]; exact List.mem_cons_self)
      exact (isWordLetter_plain hletter).1
  | string letters =>
    refine Bool.eq_false_iff.mpr fun hwraps ↦ ?_
    have hopen := (ends_of_hasWrappingParentheses hwraps).1
    cases hopen

end Terms

end RulesForge
