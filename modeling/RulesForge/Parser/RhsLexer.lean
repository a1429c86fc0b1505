import RulesForge.Engine.ArithmeticEvaluation
import RulesForge.Library.TokenLayout

/-!
# The lexer of right-hand sides

`RhsParser::Lexer` (`src/rhs_parser.cpp`): the tokens of the actions of a rule. White space and
line comments stand between tokens, the escapes in a string are resolved, and a `-` before a digit
is a part of the number, whatever stands before it. Lines and columns are left out.
-/

namespace RulesForge

/-! ### Tokens -/

inductive RhsTokenType where
  | update | insert | insertLogical | retract | halt | setFocus | «if» | «else» | «for» | «in»
  | «while» | switch | case | default | «break» | «continue» | true | false
  | identifier | variable | integer | double | string
  | lbrace | rbrace | lparen | rparen | comma | dot | assign
  | plus | minus | star | slash | mod | caret | question | colon
  | gt | lt | ge | le | eq | ne | and | or
  | error
  deriving DecidableEq, Repr

structure RhsToken where
  type : RhsTokenType
  text : List Char
  deriving DecidableEq, Repr

/-! ### The lexer -/

namespace RhsLexer

def isBlank (c : Char) : Bool :=
  c = ' ' || c = '\t' || c = '\r' || c = '\n'

/-- `skip_whitespace`, inside of a line comment or not. -/
def skipWhitespace : Bool → List Char → List Char
  | _, [] => []
  | true, c :: text => skipWhitespace (c ≠ '\n') text
  | false, c :: text =>
    if isBlank c then skipWhitespace false text
    else if c = '/' ∧ text.head? = some '/' then skipWhitespace true text
    else c :: text

def keywords : List (String × RhsTokenType) :=
  [("update", .update), ("insert", .insert), ("insertLogical", .insertLogical),
    ("retract", .retract), ("halt", .halt), ("setFocus", .setFocus), ("if", .«if»),
    ("else", .«else»), ("for", .«for»), ("in", .«in»), ("while", .«while»),
    ("switch", .switch), ("case", .case), ("default", .default), ("break", .«break»),
    ("continue", .«continue»), ("true", .true), ("false", .false)]

def wordType (word : List Char) : RhsTokenType :=
  (keywords.lookup (String.ofList word)).getD .identifier

/-- `scan_identifier`. -/
def scanIdentifier (text : List Char) : RhsToken × List Char :=
  let word := text.takeWhile isNameLetter
  (⟨wordType word, word⟩, text.dropWhile isNameLetter)

/-- The digits behind a sign, with what follows a point. -/
def scanDigits (sign text : List Char) : RhsToken × List Char :=
  let digits := sign ++ text.takeWhile Char.isDigit
  match text.dropWhile Char.isDigit with
  | '.' :: rest =>
    (⟨.double, digits ++ '.' :: rest.takeWhile Char.isDigit⟩, rest.dropWhile Char.isDigit)
  | rest => (⟨.integer, digits⟩, rest)

/-- `scan_number`. -/
def scanNumber : List Char → RhsToken × List Char
  | '-' :: text => scanDigits ['-'] text
  | text => scanDigits [] text

/-- What a letter after a backslash stands for. -/
def unescapeLetter (c : Char) : Char :=
  if c = 'n' then '\n' else if c = 't' then '\t' else if c = 'r' then '\r' else c

/-- `scan_string` behind the first quote: the letters of the string, and the text behind the last
quote. -/
def scanString (quote : Char) : List Char → List Char × List Char
  | [] => ([], [])
  | [c] => if c = quote then ([], []) else ([c], [])
  | c :: e :: text =>
    if c = quote then ([], e :: text)
    else if c = '\\' then
      let (letters, rest) := scanString quote text
      (unescapeLetter e :: letters, rest)
    else
      let (letters, rest) := scanString quote (e :: text)
      (c :: letters, rest)

def pairType (c d : Char) : Option RhsTokenType :=
  match c, d with
  | '=', '=' => some .eq
  | '!', '=' => some .ne
  | '>', '=' => some .ge
  | '<', '=' => some .le
  | '&', '&' => some .and
  | '|', '|' => some .or
  | _, _ => none

def letterType (c : Char) : RhsTokenType :=
  match c with
  | '{' => .lbrace
  | '}' => .rbrace
  | '(' => .lparen
  | ')' => .rparen
  | ',' => .comma
  | '.' => .dot
  | '=' => .assign
  | '+' => .plus
  | '-' => .minus
  | '*' => .star
  | '/' => .slash
  | '%' => .mod
  | '^' => .caret
  | '?' => .question
  | ':' => .colon
  | '>' => .gt
  | '<' => .lt
  | _ => .error

/-- The operators of two letters, and those of one. -/
def scanSymbol (c : Char) (text : List Char) : RhsToken × List Char :=
  match text with
  | [] => (⟨letterType c, [c]⟩, [])
  | d :: rest =>
    match pairType c d with
    | some type => (⟨type, [c, d]⟩, rest)
    | none => (⟨letterType c, [c]⟩, d :: rest)

/-- The token that begins with a letter. -/
def scanToken (c : Char) (text : List Char) : RhsToken × List Char :=
  if c = '$' then
    (⟨.variable, '$' :: text.takeWhile isNameLetter⟩, text.dropWhile isNameLetter)
  else if isNameStart c then scanIdentifier (c :: text)
  else if c.isDigit || (c = '-' && text.head?.any Char.isDigit) then scanNumber (c :: text)
  else if c = '"' ∨ c = '\'' then
    let (letters, rest) := scanString c text
    (⟨.string, letters⟩, rest)
  else scanSymbol c text

/-- `next`: the first token and the text behind it, or nothing at the end. -/
def next (text : List Char) : Option (RhsToken × List Char) :=
  match skipWhitespace false text with
  | [] => none
  | c :: rest => some (scanToken c rest)

end RhsLexer

/-! ### Reading on -/

/-- A letter that makes another token of the one before it. -/
def RhsToken.Extends (t : RhsToken) (c : Char) : Prop :=
  match t.type with
  | .integer => c.isDigit = true ∨ c = '.'
  | .double | .minus => c.isDigit = true
  | .slash => c = '/'
  | .assign | .gt | .lt => c = '='
  | .error => c = '=' ∨ c = '&' ∨ c = '|'
  | .string | .lbrace | .rbrace | .lparen | .rparen | .comma | .dot | .plus | .star | .mod | .caret
  | .question | .colon | .ge | .le | .eq | .ne | .and | .or => False
  | _ => isNameLetter c = true

/-- A **spelling** of a token is a text that is read as the token in front of whatever does not
extend it. -/
structure RhsToken.Spells (t : RhsToken) (spelling : List Char) : Prop where
  ne_nil : spelling ≠ []
  begins : RhsLexer.skipWhitespace false spelling = spelling
  next : ∀ rest : List Char, (∀ c ∈ rest.head?, ¬t.Extends c) →
    RhsLexer.next (spelling ++ rest) = some (t, rest)

namespace RhsLexer

theorem skipWhitespace_length : ∀ (inComment : Bool) (text : List Char),
    (skipWhitespace inComment text).length ≤ text.length
  | false, [] => le_rfl
  | true, [] => le_rfl
  | true, c :: text => by
    rw [skipWhitespace]
    exact (skipWhitespace_length _ text).trans (Nat.le_succ _)
  | false, c :: text => by
    rw [skipWhitespace]
    split
    · exact (skipWhitespace_length false text).trans (Nat.le_succ _)
    · split
      · exact (skipWhitespace_length true text).trans (Nat.le_succ _)
      · exact le_rfl

theorem dropWhile_length (p : Char → Bool) (text : List Char) :
    (text.dropWhile p).length ≤ text.length :=
  (List.dropWhile_sublist p).length_le

theorem scanString_close (quote : Char) (text : List Char) :
    scanString quote (quote :: text) = ([], text) := by
  cases text with
  | nil => rw [scanString, if_pos rfl]
  | cons e text => rw [scanString, if_pos rfl]

theorem scanString_escape {quote : Char} (hquote : '\\' ≠ quote) (e : Char) (text : List Char) :
    scanString quote ('\\' :: e :: text) =
      (unescapeLetter e :: (scanString quote text).1, (scanString quote text).2) := by
  rw [scanString, if_neg hquote, if_pos rfl]

theorem scanString_letter {quote c : Char} (hquote : c ≠ quote) (hescape : c ≠ '\\')
    (text : List Char) :
    scanString quote (c :: text) =
      (c :: (scanString quote text).1, (scanString quote text).2) := by
  cases text with
  | nil => exact if_neg hquote
  | cons e text => rw [scanString, if_neg hquote, if_neg hescape]

theorem scanString_length (quote : Char) : ∀ text : List Char,
    (scanString quote text).2.length ≤ text.length
  | [] => le_rfl
  | [c] => by
    rw [scanString]
    split
    · exact Nat.le_succ _
    · exact Nat.le_succ _
  | c :: e :: text => by
    by_cases hquote : c = quote
    · rw [hquote, scanString_close]
      exact Nat.le_succ _
    · by_cases hescape : c = '\\'
      · subst hescape
        rw [scanString_escape hquote]
        exact (scanString_length quote text).trans (by simp only [List.length_cons]; omega)
      · rw [scanString_letter hquote hescape]
        exact (scanString_length quote (e :: text)).trans (Nat.le_succ _)

theorem scanDigits_length (sign text : List Char) :
    (scanDigits sign text).2.length ≤ text.length := by
  have hdigits := dropWhile_length Char.isDigit text
  unfold scanDigits
  split
  · rename_i rest hrest
    rw [hrest, List.length_cons] at hdigits
    exact (dropWhile_length Char.isDigit rest).trans (by omega)
  · exact hdigits

/-- A token takes at least its first letter. -/
theorem scanToken_length (c : Char) (text : List Char) :
    (scanToken c text).2.length ≤ text.length := by
  unfold scanToken
  split
  · exact dropWhile_length _ text
  split
  · rename_i hname
    -- the first letter is one of the word
    have hletter : isNameLetter c = true := by
      simp only [isNameStart, isNameLetter, Char.isAlphanum, Bool.or_eq_true] at hname ⊢
      tauto
    show ((c :: text).dropWhile isNameLetter).length ≤ text.length
    rw [List.dropWhile_cons, if_pos hletter]
    exact dropWhile_length _ text
  split
  · rename_i hnumber
    unfold scanNumber
    split
    · rename_i htext
      cases htext
      exact scanDigits_length ['-'] text
    · rename_i hsign
      have hdigit : c.isDigit = true := by
        simp only [Bool.or_eq_true, Bool.and_eq_true, decide_eq_true_eq] at hnumber
        rcases hnumber with hdigit | ⟨rfl, -⟩
        · exact hdigit
        · exact absurd rfl (hsign text)
      have hsame : (scanDigits [] (c :: text)).2 = (scanDigits [] text).2 := by
        unfold scanDigits
        rw [List.dropWhile_cons, if_pos hdigit]
        split <;> rfl
      rw [hsame]
      exact scanDigits_length [] text
  split
  · exact scanString_length c text
  · unfold scanSymbol
    split
    · exact le_rfl
    · split
      · exact Nat.le_succ _
      · exact le_rfl

/-- `skip_whitespace` and `next` as a reader of tokens. -/
def reader : TokenReader RhsToken where
  next := next
  blank := isBlank
  Spells := RhsToken.Spells
  Extends := RhsToken.Extends
  next_shorter := by
    intro text t rest h
    unfold next at h
    have hskip := skipWhitespace_length false text
    split at h
    · contradiction
    · rename_i c tail htail
      have hread : scanToken c tail = (t, rest) := Option.some.inj h
      have hlength := scanToken_length c tail
      rw [hread] at hlength
      rw [htail, List.length_cons] at hskip
      exact Nat.lt_of_le_of_lt hlength hskip
  next_blanks := by
    intro text h
    have hskip : skipWhitespace false text = [] := by
      induction text with
      | nil => rfl
      | cons c text ih =>
        rw [skipWhitespace, if_pos (h c List.mem_cons_self)]
        exact ih fun d hd ↦ h d (List.mem_cons_of_mem c hd)
    unfold next
    rw [hskip]
  next_blank := by
    intro c text h
    unfold next
    rw [skipWhitespace, if_pos h]
  spelling_ne_nil := RhsToken.Spells.ne_nil
  next_spelling h := h.next _
  blank_space := rfl
  not_extends_blank := by
    intro t c hblank
    have hc : c = ' ' ∨ c = '\t' ∨ c = '\r' ∨ c = '\n' := by
      simp only [isBlank, Bool.or_eq_true, decide_eq_true_eq] at hblank
      tauto
    unfold RhsToken.Extends
    rcases hc with rfl | rfl | rfl | rfl <;> cases t.type <;> decide

/-! ### The tokens that are read -/

/-- The letters of a symbol. -/
def symbolText : RhsTokenType → Option (List Char)
  | .lbrace => some ['{']
  | .rbrace => some ['}']
  | .lparen => some ['(']
  | .rparen => some [')']
  | .comma => some [',']
  | .dot => some ['.']
  | .assign => some ['=']
  | .plus => some ['+']
  | .minus => some ['-']
  | .star => some ['*']
  | .slash => some ['/']
  | .mod => some ['%']
  | .caret => some ['^']
  | .question => some ['?']
  | .colon => some [':']
  | .gt => some ['>']
  | .lt => some ['<']
  | .ge => some ['>', '=']
  | .le => some ['<', '=']
  | .eq => some ['=', '=']
  | .ne => some ['!', '=']
  | .and => some ['&', '&']
  | .or => some ['|', '|']
  | _ => none

/-- Digits, with a sign or none. -/
structure IsNumeral (text : List Char) : Prop where
  exists_digits : ∃ sign digits, text = sign ++ digits ∧ (sign = [] ∨ sign = ['-']) ∧
    digits ≠ [] ∧ ∀ c ∈ digits, c.isDigit = true

/-- The texts that tokens are read with. -/
def WellFormed (t : RhsToken) : Prop :=
  match t.type with
  | .variable => ∃ letters, t.text = '$' :: letters ∧ ∀ c ∈ letters, isNameLetter c = true
  | .integer => IsNumeral t.text
  | .double => ∃ digits fraction, t.text = digits ++ '.' :: fraction ∧ IsNumeral digits ∧
      ∀ c ∈ fraction, c.isDigit = true
  | .string | .error => True
  | type =>
    match symbolText type with
    | some text => t.text = text
    | none => ∃ c letters, t.text = c :: letters ∧ isNameStart c = true ∧
        (∀ d ∈ letters, isNameLetter d = true) ∧ wordType t.text = t.type

/-- The five kinds of tokens. -/
theorem scanToken_cases (c : Char) (text : List Char) :
    (c = '$' ∧ scanToken c text =
        (⟨.variable, '$' :: text.takeWhile isNameLetter⟩, text.dropWhile isNameLetter)) ∨
      (isNameStart c = true ∧ scanToken c text = scanIdentifier (c :: text)) ∨
      ((c.isDigit = true ∨ c = '-' ∧ text.head?.any Char.isDigit = true) ∧
        scanToken c text = scanNumber (c :: text)) ∨
      ((c = '"' ∨ c = '\'') ∧
        scanToken c text = (⟨.string, (scanString c text).1⟩, (scanString c text).2)) ∨
      scanToken c text = scanSymbol c text := by
  unfold scanToken
  split
  · rename_i hc
    exact .inl ⟨hc, rfl⟩
  split
  · rename_i hc
    exact .inr (.inl ⟨hc, rfl⟩)
  split
  · rename_i hc
    simp only [Bool.or_eq_true, Bool.and_eq_true, decide_eq_true_eq] at hc
    exact .inr (.inr (.inl ⟨hc, rfl⟩))
  split
  · rename_i hc
    exact .inr (.inr (.inr (.inl ⟨hc, rfl⟩)))
  · exact .inr (.inr (.inr (.inr rfl)))

variable {c : Char} {t : RhsToken}

theorem mem_takeWhile {p : Char → Bool} {text : List Char}
    (hc : c ∈ text.takeWhile p) : p c = true :=
  List.mem_takeWhile_imp hc

theorem isNumeral_takeWhile {sign text : List Char} (hsign : sign = [] ∨ sign = ['-'])
    (hdigit : text.head?.any Char.isDigit = true) :
    IsNumeral (sign ++ text.takeWhile Char.isDigit) := by
  refine ⟨sign, _, rfl, hsign, ?_, fun c hc ↦ mem_takeWhile hc⟩
  cases text with
  | nil => contradiction
  | cons c text =>
    have hc : c.isDigit = true := hdigit
    rw [List.takeWhile_cons, if_pos hc]
    exact List.cons_ne_nil _ _

theorem scanDigits_wellFormed {sign text : List Char} (hsign : sign = [] ∨ sign = ['-'])
    (hdigit : text.head?.any Char.isDigit = true) : WellFormed (scanDigits sign text).1 := by
  have hnumeral := isNumeral_takeWhile hsign hdigit
  unfold scanDigits
  dsimp only
  split
  · rename_i rest hrest
    exact ⟨_, _, rfl, hnumeral, fun c hc ↦ mem_takeWhile hc⟩
  · exact hnumeral

theorem symbolText_letterType (c : Char) (h : letterType c ≠ .error) :
    symbolText (letterType c) = some [c] := by
  unfold letterType at h ⊢
  split at h <;> first | rfl | exact absurd rfl h

theorem symbolText_pairType {c d : Char} {type : RhsTokenType} (h : pairType c d = some type) :
    symbolText type = some [c, d] := by
  unfold pairType at h
  split at h <;> first | (cases h; rfl) | contradiction

theorem wellFormed_of_symbolText (h : symbolText t.type = some t.text) :
    WellFormed t := by
  obtain ⟨type, text⟩ := t
  unfold WellFormed
  dsimp only at h ⊢
  cases type <;> first | contradiction | (cases h; rfl)

/-- A type that the lexer gives to words. -/
def IsWord (type : RhsTokenType) : Prop :=
  symbolText type = none ∧ type ≠ .variable ∧ type ≠ .integer ∧ type ≠ .double ∧ type ≠ .string ∧
    type ≠ .error

instance (type : RhsTokenType) : Decidable (IsWord type) :=
  inferInstanceAs (Decidable (_ ∧ _))

theorem isWord_wordType (word : List Char) : IsWord (wordType word) := by
  have hall : ∀ entry ∈ keywords, IsWord entry.2 := by decide
  unfold wordType
  cases hlookup : keywords.lookup (String.ofList word) with
  | none => decide
  | some type =>
    obtain ⟨l₁, l₂, hkeywords, -⟩ := List.lookup_eq_some_iff.mp hlookup
    refine hall (String.ofList word, type) ?_
    rw [hkeywords]
    exact List.mem_append_right _ List.mem_cons_self

theorem wellFormed_of_word (hword : IsWord t.type) {letters : List Char}
    (htext : t.text = c :: letters) (hc : isNameStart c = true)
    (hletters : ∀ d ∈ letters, isNameLetter d = true) (htype : wordType t.text = t.type) :
    WellFormed t := by
  obtain ⟨type, text⟩ := t
  unfold WellFormed
  dsimp only at hword htext htype ⊢
  obtain ⟨hsymbol, hvariable, hinteger, hdouble, hstring, herror⟩ := hword
  cases type <;> first | contradiction | exact ⟨c, letters, htext, hc, hletters, htype⟩

theorem isNameLetter_of_isNameStart (h : isNameStart c = true) :
    isNameLetter c = true := by
  simp only [isNameStart, isNameLetter, Char.isAlphanum, Bool.or_eq_true] at h ⊢
  tauto

theorem scanSymbol_wellFormed (c : Char) (text : List Char) :
    WellFormed (scanSymbol c text).1 := by
  have hletter : ∀ rest : List Char, WellFormed ((⟨letterType c, [c]⟩, rest) : RhsToken × _).1 := by
    intro rest
    by_cases herror : letterType c = .error
    · unfold WellFormed
      dsimp only
      rw [herror]
      trivial
    · exact wellFormed_of_symbolText (symbolText_letterType c herror)
  unfold scanSymbol
  split
  · exact hletter []
  · split
    · rename_i hpair
      exact wellFormed_of_symbolText (symbolText_pairType hpair)
    · exact hletter _

/-- **What is read is well formed.** -/
theorem scanToken_wellFormed (c : Char) (text : List Char) : WellFormed (scanToken c text).1 := by
  rcases scanToken_cases c text with ⟨-, h⟩ | ⟨hc, h⟩ | ⟨hc, h⟩ | ⟨-, h⟩ | h
  · rw [h]
    exact ⟨_, rfl, fun d hd ↦ mem_takeWhile hd⟩
  · rw [h]
    have htake : (c :: text).takeWhile isNameLetter = c :: text.takeWhile isNameLetter := by
      rw [List.takeWhile_cons, if_pos (isNameLetter_of_isNameStart hc)]
    exact wellFormed_of_word (isWord_wordType _) htake hc (fun d hd ↦ mem_takeWhile hd) rfl
  · rw [h]
    unfold scanNumber
    split
    · rename_i htext
      cases htext
      refine scanDigits_wellFormed (.inr rfl) ?_
      rcases hc with hdigit | ⟨-, hdigit⟩
      · exact absurd hdigit (by decide)
      · exact hdigit
    · rename_i hsign
      refine scanDigits_wellFormed (.inl rfl) ?_
      rcases hc with hdigit | ⟨rfl, -⟩
      · exact hdigit
      · exact absurd rfl (hsign text)
  · rw [h]
    trivial
  · rw [h]
    exact scanSymbol_wellFormed c text

theorem exists_text_scanDigits (sign text : List Char) :
    ∃ extra, (scanDigits sign text).1.text = sign ++ text.takeWhile Char.isDigit ++ extra := by
  unfold scanDigits
  dsimp only
  split
  · exact ⟨_, rfl⟩
  · exact ⟨[], (List.append_nil _).symm⟩

theorem scanDigits_type (sign text : List Char) :
    (scanDigits sign text).1.type = .integer ∨ (scanDigits sign text).1.type = .double := by
  unfold scanDigits
  dsimp only
  split
  · exact .inr rfl
  · exact .inl rfl

theorem scanNumber_type (text : List Char) :
    (scanNumber text).1.type = .integer ∨ (scanNumber text).1.type = .double := by
  unfold scanNumber
  split
  · exact scanDigits_type _ _
  · exact scanDigits_type _ _

theorem letterType_ne_string (c : Char) : letterType c ≠ .string := by
  unfold letterType
  split <;> exact RhsTokenType.noConfusion

theorem pairType_ne_string {c d : Char} {type : RhsTokenType} (h : pairType c d = some type) :
    type ≠ .string := by
  rintro rfl
  unfold pairType at h
  split at h <;> cases h

/-- The letter that a token begins with: a quote, or the first one of its text. -/
theorem scanToken_head (c : Char) (text : List Char) :
    (scanToken c text).1.type = .string ∧ (c = '"' ∨ c = '\'') ∨
      (scanToken c text).1.type ≠ .string ∧ (scanToken c text).1.text.head? = some c := by
  rcases scanToken_cases c text with ⟨hc, h⟩ | ⟨hc, h⟩ | ⟨hc, h⟩ | ⟨hc, h⟩ | h
  · rw [h, hc]
    exact .inr ⟨nofun, rfl⟩
  · rw [h]
    have htake : (c :: text).takeWhile isNameLetter = c :: text.takeWhile isNameLetter := by
      rw [List.takeWhile_cons, if_pos (isNameLetter_of_isNameStart hc)]
    exact .inr ⟨(isWord_wordType _).2.2.2.2.1, congrArg List.head? htake⟩
  · rw [h]
    refine .inr ⟨fun hstring ↦ ?_, ?_⟩
    · rcases scanNumber_type (c :: text) with htype | htype <;> rw [htype] at hstring <;>
        contradiction
    · unfold scanNumber
      split
      · rename_i htext
        cases htext
        obtain ⟨extra, hextra⟩ := exists_text_scanDigits ['-'] text
        rw [hextra]
        rfl
      · rename_i hsign
        have hdigit : c.isDigit = true := by
          rcases hc with hdigit | ⟨rfl, -⟩
          · exact hdigit
          · exact absurd rfl (hsign text)
        obtain ⟨extra, hextra⟩ := exists_text_scanDigits [] (c :: text)
        rw [hextra, List.takeWhile_cons, if_pos hdigit]
        rfl
  · rw [h]
    exact .inl ⟨rfl, hc⟩
  · rw [h]
    refine .inr ?_
    unfold scanSymbol
    split
    · exact ⟨letterType_ne_string c, rfl⟩
    · split
      · rename_i hpair
        exact ⟨pairType_ne_string hpair, rfl⟩
      · exact ⟨letterType_ne_string c, rfl⟩

/-! ### Tokens next to each other -/

/-- A token that an operand of an expression may begin with. -/
def isStarter (type : RhsTokenType) : Bool :=
  type = .lparen || type = .variable || type = .identifier || type = .integer || type = .double ||
    type = .string

/-- A token that an operand may end with. -/
def isEnder (type : RhsTokenType) : Bool :=
  type = .rparen || type = .variable || type = .identifier || type = .integer || type = .double ||
    type = .string

/-- An operator, or what stands between operands as one does. -/
def isJoiner (type : RhsTokenType) : Bool :=
  type = .question || type = .colon || type = .comma || type = .or || type = .and || type = .gt ||
    type = .lt || type = .ge || type = .le || type = .eq || type = .ne || type = .plus ||
    type = .minus || type = .star || type = .slash || type = .mod || type = .caret

/-- Which tokens of an expression may follow each other. -/
inductive Meets (t t' : RhsToken) : Prop where
  | ends (ender : isEnder t.type = true) (joiner : isJoiner t'.type = true ∨ t'.type = .rparen)
  | begins (joiner : isJoiner t.type = true ∨ t.type = .lparen) (starter : isStarter t'.type = true)
  | field (word : t.type = .variable ∨ t.type = .identifier) (dot : t'.type = .dot)
  | dot (dot : t.type = .dot) (word : t'.type = .identifier)
  | call (word : t.type = .identifier) (lparen : t'.type = .lparen)
  | empty (lparen : t.type = .lparen) (rparen : t'.type = .rparen)

/-- A minus and a number without a sign. -/
def IsGlued (t t' : RhsToken) : Prop :=
  t.type = .minus ∧ (t'.type = .integer ∨ t'.type = .double) ∧ t'.text.head? ≠ some '-'

theorem scanToken_of_spells {tail : List Char}
    (h : t.Spells (c :: tail)) : scanToken c tail = (t, []) := by
  have hnext := h.next [] fun _ hc ↦ nomatch hc
  rw [List.append_nil, next, h.begins] at hnext
  exact Option.some.inj hnext

/-- The letters that a token may begin with. -/
def BeginsWith (t : RhsToken) (c : Char) : Prop :=
  match t.type with
  | .string => c = '"' ∨ c = '\''
  | .variable => c = '$'
  | .integer | .double => t.text.head? = some c ∧ (c = '-' ∨ c.isDigit = true)
  | .error => True
  | type =>
    match symbolText type with
    | some text => text.head? = some c
    | none => isNameStart c = true

theorem IsNumeral.head {text : List Char} (h : IsNumeral text) :
    ∃ c tail, text = c :: tail ∧ (c = '-' ∨ c.isDigit = true) := by
  obtain ⟨sign, digits, rfl, hsign, hne, hdigits⟩ := h.exists_digits
  rcases hsign with rfl | rfl
  · obtain ⟨c, tail, rfl⟩ := List.exists_cons_of_ne_nil hne
    exact ⟨c, tail, rfl, .inr (hdigits c List.mem_cons_self)⟩
  · exact ⟨'-', digits, rfl, .inl rfl⟩

/-- The letter that a spelling begins with. -/
theorem beginsWith_of_spells {tail : List Char} (hwf : WellFormed t)
    (h : t.Spells (c :: tail)) : BeginsWith t c := by
  have hhead := scanToken_head c tail
  rw [scanToken_of_spells h] at hhead
  rcases hhead with ⟨htype, hquote⟩ | ⟨htype, hhead⟩
  · unfold BeginsWith
    rw [htype]
    exact hquote
  · have hnumber : ∀ digits rest : List Char, t.text = digits ++ rest → IsNumeral digits →
        t.text.head? = some c ∧ (c = '-' ∨ c.isDigit = true) := by
      intro digits rest htext hnumeral
      obtain ⟨d, tail, rfl, hd⟩ := hnumeral.head
      refine ⟨hhead, ?_⟩
      rw [htext] at hhead
      cases hhead
      exact hd
    obtain ⟨type, text⟩ := t
    unfold WellFormed at hwf
    unfold BeginsWith
    dsimp only at hwf htype hhead hnumber ⊢
    have hsymbol : ∀ symbol : List Char, text = symbol → symbol.head? = some c := by
      rintro symbol rfl
      exact hhead
    cases type with
    | string => exact absurd rfl htype
    | error => trivial
    | «variable» =>
      obtain ⟨letters, rfl, -⟩ := hwf
      exact (Option.some.inj hhead).symm
    | integer => exact hnumber text [] (List.append_nil text).symm hwf
    | double =>
      obtain ⟨digits, fraction, rfl, hdigits, -⟩ := hwf
      exact hnumber digits _ rfl hdigits
    | _ =>
      first
        | exact hsymbol _ hwf
        | obtain ⟨d, letters, rfl, hd, -⟩ := hwf
          cases hhead
          exact hd

/-- The letters that symbols between operands begin with. -/
def joinerLetters : List Char :=
  ['?', ':', ',', '|', '&', '>', '<', '=', '!', '+', '-', '*', '/', '%', '^', '(', ')']

theorem beginsWith_joiner
    (ht : isJoiner t.type = true ∨ t.type = .lparen ∨ t.type = .rparen) (h : BeginsWith t c) :
    c ∈ joinerLetters := by
  obtain ⟨type, text⟩ := t
  unfold BeginsWith at h
  dsimp only at ht h
  cases type <;> first
    | exact absurd ht (by decide)
    | (cases h; decide)

/-- They are no part of words and numbers. -/
theorem joinerLetters_apart (h : c ∈ joinerLetters) :
    isNameLetter c = false ∧ c.isDigit = false ∧ c ≠ '.' :=
  have hall : ∀ d ∈ joinerLetters, isNameLetter d = false ∧ d.isDigit = false ∧ d ≠ '.' :=
    forall_mem_of_all rfl
  hall c h

/-- The letter that an operand begins with is no `=` and no `/`, and a digit only if it is a
number. -/
theorem beginsWith_starter (ht : isStarter t.type = true)
    (h : BeginsWith t c) :
    c ≠ '=' ∧ c ≠ '/' ∧ (c.isDigit = true →
      (t.type = .integer ∨ t.type = .double) ∧ t.text.head? ≠ some '-') := by
  have hnumber : t.text.head? = some c ∧ (c = '-' ∨ c.isDigit = true) →
      (t.type = .integer ∨ t.type = .double) → c ≠ '=' ∧ c ≠ '/' ∧ (c.isDigit = true →
        (t.type = .integer ∨ t.type = .double) ∧ t.text.head? ≠ some '-') := by
    rintro ⟨hhead, hc⟩ htype
    have hne : ∀ d : Char, d ≠ '-' → d.isDigit = false → c ≠ d := by
      rintro d hminus hdigit rfl
      rcases hc with rfl | hc
      · exact hminus rfl
      · rw [hdigit] at hc
        contradiction
    refine ⟨hne '=' (by decide) rfl, hne '/' (by decide) rfl, fun hdigit ↦ ⟨htype, ?_⟩⟩
    rw [hhead]
    rintro ⟨rfl⟩
    exact Bool.false_ne_true hdigit
  obtain ⟨type, text⟩ := t
  unfold BeginsWith at h
  dsimp only at ht h hnumber ⊢
  cases type with
  | lparen =>
    cases h
    exact ⟨by decide, by decide, fun hdigit ↦ absurd hdigit (by decide)⟩
  | «variable» =>
    cases h
    exact ⟨by decide, by decide, fun hdigit ↦ absurd hdigit (by decide)⟩
  | string =>
    rcases h with rfl | rfl
    · exact ⟨by decide, by decide, fun hdigit ↦ absurd hdigit (by decide)⟩
    · exact ⟨by decide, by decide, fun hdigit ↦ absurd hdigit (by decide)⟩
  | identifier =>
    have h : isNameStart c = true := h
    refine ⟨?_, ?_, fun hdigit ↦ ?_⟩
    · rintro rfl
      contradiction
    · rintro rfl
      contradiction
    · have hstart : isStart c = true := by
        rw [isStart, hdigit, Bool.or_true]
      rw [isNameStart_of_isStart hstart] at h
      contradiction
  | integer => exact hnumber h (.inl rfl)
  | double => exact hnumber h (.inr rfl)
  | _ => contradiction

/-- **Tokens that may follow each other** are apart, unless a minus stands before a number without
a sign. -/
theorem apart_of_meets {t t' : RhsToken} (hmeets : Meets t t') (hwf : WellFormed t')
    (hglued : ¬IsGlued t t') : reader.Apart t t' := by
  intro spelling hspells c hc
  obtain ⟨d, tail, rfl⟩ := List.exists_cons_of_ne_nil hspells.ne_nil
  cases hc
  have hbegins := beginsWith_of_spells hwf hspells
  show ¬t.Extends c
  cases hmeets with
  | ends ender joiner =>
    have hletter := joinerLetters_apart (beginsWith_joiner (joiner.imp_right .inr) hbegins)
    obtain ⟨type, text⟩ := t
    unfold RhsToken.Extends
    dsimp only at ender ⊢
    cases type <;> first
      | exact absurd ender (by decide)
      | simp [hletter]
  | begins joiner starter =>
    obtain ⟨hequal, hslash, hdigit⟩ := beginsWith_starter starter hbegins
    have hminus : t.type = .minus → c.isDigit = false := by
      intro htype
      refine Bool.eq_false_iff.mpr fun hc ↦ ?_
      exact hglued ⟨htype, hdigit hc⟩
    obtain ⟨type, text⟩ := t
    unfold RhsToken.Extends
    dsimp only at joiner hminus ⊢
    cases type <;> first
      | exact absurd joiner (by decide)
      | exact hequal
      | exact hslash
      | exact not_false
      | (rw [hminus rfl]; exact Bool.false_ne_true)
  | field word dot =>
    have hc : c = '.' := by
      unfold BeginsWith at hbegins
      rw [dot] at hbegins
      exact (Option.some.inj hbegins).symm
    unfold RhsToken.Extends
    rcases word with word | word <;> rw [word, hc] <;> decide
  | dot dot word =>
    unfold RhsToken.Extends
    rw [dot]
    exact not_false
  | call word lparen =>
    have hc : c = '(' := by
      unfold BeginsWith at hbegins
      rw [lparen] at hbegins
      exact (Option.some.inj hbegins).symm
    unfold RhsToken.Extends
    rw [word, hc]
    decide
  | empty lparen rparen =>
    unfold RhsToken.Extends
    rw [lparen]
    exact not_false

/-- A spelling of a minus is the letter itself. -/
theorem spells_minus {spelling : List Char} (ht : t.type = .minus)
    (h : t.Spells spelling) : spelling = ['-'] := by
  obtain ⟨c, tail, rfl⟩ := List.exists_cons_of_ne_nil h.ne_nil
  have hread := scanToken_of_spells h
  have htype : (scanToken c tail).1.type = .minus := by rw [hread]; exact ht
  rcases scanToken_cases c tail with ⟨-, hscan⟩ | ⟨-, hscan⟩ | ⟨-, hscan⟩ | ⟨-, hscan⟩ | hscan
  · rw [hscan] at htype
    contradiction
  · rw [hscan] at htype
    have hword : wordType ((c :: tail).takeWhile isNameLetter) = .minus := htype
    have hsymbol := (isWord_wordType ((c :: tail).takeWhile isNameLetter)).1
    rw [hword] at hsymbol
    contradiction
  · rw [hscan] at htype
    rcases scanNumber_type (c :: tail) with hnumber | hnumber <;> rw [hnumber] at htype <;>
      contradiction
  · rw [hscan] at htype
    contradiction
  · rw [hscan] at htype hread
    have hletter : letterType c = .minus → c = '-' := by
      intro hminus
      have hsymbol := symbolText_letterType c (by rw [hminus]; nofun)
      rw [hminus] at hsymbol
      exact (List.head_eq_of_cons_eq (Option.some.inj hsymbol)).symm
    unfold scanSymbol at htype hread
    cases tail with
    | nil => rw [hletter htype]
    | cons d tail =>
      dsimp only at htype hread
      cases hpair : pairType c d with
      | none =>
        rw [hpair] at hread
        cases hread
      | some type =>
        rw [hpair] at htype
        have hsymbol := symbolText_pairType hpair
        rw [show type = .minus from htype] at hsymbol
        cases hsymbol

/-- **A minus before a digit** is read as the sign of a number. -/
theorem readsOn_minus (ht : t.type = .minus) : reader.ReadsOn t := by
  intro spelling c rest rest' hspells hextends hnext
  rw [spells_minus ht hspells] at hnext
  have hdigit : c.isDigit = true := by
    have hextends : t.Extends c := hextends
    unfold RhsToken.Extends at hextends
    rwa [ht] at hextends
  have hscan : scanToken '-' (c :: rest) = scanNumber ('-' :: c :: rest) := by
    unfold scanToken
    rw [if_neg (by decide), if_neg (by decide), if_pos]
    show (Char.isDigit '-' || (decide ('-' = '-') && c.isDigit)) = true
    rw [hdigit]
    rfl
  have hread : scanNumber ('-' :: c :: rest) = (t, rest') := by
    rw [← hscan]
    exact Option.some.inj hnext
  have htype := scanNumber_type ('-' :: c :: rest)
  rw [hread, ht] at htype
  rcases htype with htype | htype <;> contradiction

/-! ### Spellings -/

theorem takeWhile_append_rest {p : Char → Bool} {letters rest : List Char}
    (hletters : ∀ c ∈ letters, p c = true) (hrest : ∀ c ∈ rest.head?, p c = false) :
    (letters ++ rest).takeWhile p = letters ∧ (letters ++ rest).dropWhile p = rest := by
  induction letters with
  | nil =>
    cases rest with
    | nil => exact ⟨rfl, rfl⟩
    | cons c rest =>
      have hc : p c = false := hrest c rfl
      rw [List.nil_append, List.takeWhile_cons, List.dropWhile_cons, hc]
      exact ⟨rfl, rfl⟩
  | cons c letters ih =>
    obtain ⟨htake, hdrop⟩ := ih fun d hd ↦ hletters d (List.mem_cons_of_mem c hd)
    rw [List.cons_append, List.takeWhile_cons, List.dropWhile_cons,
      if_pos (hletters c List.mem_cons_self), if_pos (hletters c List.mem_cons_self), htake, hdrop]
    exact ⟨rfl, rfl⟩

/-- The letters of a string between double quotes, where a backslash stands before quotes and
backslashes. -/
def escapeLetters : List Char → List Char
  | [] => []
  | c :: letters =>
    if c = '"' ∨ c = '\\' then '\\' :: c :: escapeLetters letters else c :: escapeLetters letters

theorem scanString_escapeLetters (letters rest : List Char) :
    scanString '"' (escapeLetters letters ++ '"' :: rest) = (letters, rest) := by
  induction letters with
  | nil => exact scanString_close '"' rest
  | cons c letters ih =>
    rw [escapeLetters]
    by_cases hc : c = '"' ∨ c = '\\'
    · rw [if_pos hc, List.cons_append, List.cons_append, scanString_escape (by decide), ih]
      rcases hc with rfl | rfl <;> rfl
    · rw [if_neg hc, List.cons_append, scanString_letter (fun h ↦ hc (.inl h))
        (fun h ↦ hc (.inr h)), ih]

/-- What a token has to be read from a text that begins with a letter of its own. -/
theorem spells_of_scanToken {tail : List Char}
    (hblank : isBlank c = false) (hcomment : c = '/' → tail = [] ∧ t.Extends '/')
    (h : ∀ rest : List Char, (∀ d ∈ rest.head?, ¬t.Extends d) →
      scanToken c (tail ++ rest) = (t, rest)) : t.Spells (c :: tail) := by
  have hskip : ∀ rest : List Char, (∀ d ∈ rest.head?, ¬t.Extends d) →
      skipWhitespace false (c :: (tail ++ rest)) = c :: (tail ++ rest) := by
    intro rest hrest
    rw [skipWhitespace, if_neg (by rw [hblank]; exact Bool.false_ne_true), if_neg]
    rintro ⟨hc, hhead⟩
    obtain ⟨rfl, hextends⟩ := hcomment hc
    exact hrest '/' hhead hextends
  refine ⟨List.cons_ne_nil c tail, ?_, fun rest hrest ↦ ?_⟩
  · have hself := hskip [] fun _ hd ↦ nomatch hd
    rwa [List.append_nil] at hself
  · rw [next, List.cons_append, hskip rest hrest]
    exact congrArg some (h rest hrest)

/-- The letters of symbols that begin no other token. -/
def IsSymbolLetter (c : Char) : Prop :=
  c ≠ '$' ∧ isNameStart c = false ∧ c.isDigit = false ∧ c ≠ '"' ∧ c ≠ '\'' ∧ isBlank c = false

instance (c : Char) : Decidable (IsSymbolLetter c) := inferInstanceAs (Decidable (_ ∧ _))

theorem scanToken_symbol {text : List Char} (hc : IsSymbolLetter c)
    (hminus : c = '-' → ∀ d ∈ text.head?, d.isDigit = false) :
    scanToken c text = scanSymbol c text := by
  obtain ⟨hdollar, hname, hdigit, hdouble, hsingle, -⟩ := hc
  have hnumber : ¬(c.isDigit || (c = '-' && text.head?.any Char.isDigit)) = true := by
    simp only [Bool.or_eq_true, Bool.and_eq_true, decide_eq_true_eq, hdigit]
    rintro (hfalse | ⟨hc, hany⟩)
    · contradiction
    · cases text with
      | nil => contradiction
      | cons d text =>
        have hd : d.isDigit = false := hminus hc d rfl
        rw [show d.isDigit = true from hany] at hd
        contradiction
  unfold scanToken
  rw [if_neg hdollar, if_neg (by rw [hname]; exact Bool.false_ne_true), if_neg hnumber,
    if_neg (not_or.mpr ⟨hdouble, hsingle⟩)]

/-- A symbol of one letter. -/
theorem spells_letter (hc : IsSymbolLetter c)
    (htype : letterType c = t.type) (htext : t.text = [c])
    (hslash : c = '/' → t.Extends '/') (hdigit : c = '-' → ∀ d, ¬t.Extends d → d.isDigit = false)
    (hpair : ∀ d, ¬t.Extends d → pairType c d = none) : t.Spells [c] := by
  refine spells_of_scanToken hc.2.2.2.2.2 (fun h ↦ ⟨rfl, hslash h⟩) fun rest hrest ↦ ?_
  rw [List.nil_append, scanToken_symbol hc fun h d hd ↦ hdigit h d (hrest d hd)]
  have ht : t = ⟨letterType c, [c]⟩ := by
    rw [htype, ← htext]
  cases rest with
  | nil => rw [scanSymbol, ht]
  | cons d rest =>
    rw [scanSymbol, hpair d (hrest d rfl), ht]

/-- A symbol of two letters. -/
theorem spells_pair {c d : Char} (hc : IsSymbolLetter c) (hminus : c ≠ '-')
    (hslash : c ≠ '/') (hpair : pairType c d = some t.type) (htext : t.text = [c, d]) :
    t.Spells [c, d] := by
  refine spells_of_scanToken hc.2.2.2.2.2 (fun h ↦ absurd h hslash) fun rest _ ↦ ?_
  rw [scanToken_symbol hc fun h ↦ absurd h hminus, List.singleton_append, scanSymbol, hpair,
    ← htext]

theorem scanDigits_append {sign digits rest : List Char}
    (hdigits : ∀ c ∈ digits, c.isDigit = true)
    (hrest : ∀ c ∈ rest.head?, c.isDigit = false ∧ c ≠ '.') :
    scanDigits sign (digits ++ rest) = (⟨.integer, sign ++ digits⟩, rest) := by
  obtain ⟨htake, hdrop⟩ := takeWhile_append_rest hdigits fun c hc ↦ (hrest c hc).1
  unfold scanDigits
  rw [htake, hdrop]
  dsimp only
  split
  · exact absurd rfl (hrest '.' rfl).2
  · rfl

theorem scanDigits_point {sign digits fraction rest : List Char}
    (hdigits : ∀ c ∈ digits, c.isDigit = true) (hfraction : ∀ c ∈ fraction, c.isDigit = true)
    (hrest : ∀ c ∈ rest.head?, c.isDigit = false) :
    scanDigits sign (digits ++ '.' :: (fraction ++ rest)) =
      (⟨.double, sign ++ digits ++ '.' :: fraction⟩, rest) := by
  have hpoint : ∀ c ∈ ('.' :: (fraction ++ rest)).head?, c.isDigit = false := by
    rintro c ⟨⟩
    rfl
  obtain ⟨htake, hdrop⟩ := takeWhile_append_rest hdigits hpoint
  obtain ⟨htake', hdrop'⟩ := takeWhile_append_rest hfraction hrest
  unfold scanDigits
  rw [htake, hdrop]
  show ((⟨.double, sign ++ digits ++ '.' :: (fraction ++ rest).takeWhile Char.isDigit⟩,
    (fraction ++ rest).dropWhile Char.isDigit) : RhsToken × List Char) = _
  rw [htake', hdrop']

/-- A number begins with its sign or a digit. -/
theorem scanToken_number {sign digits : List Char} (hsign : sign = [] ∨ sign = ['-'])
    (hne : digits ≠ []) (hdigits : ∀ c ∈ digits, c.isDigit = true) :
    ∃ c tail, sign ++ digits = c :: tail ∧ isBlank c = false ∧ c ≠ '/' ∧
      ∀ rest, scanToken c (tail ++ rest) = scanDigits sign (digits ++ rest) := by
  obtain ⟨c, tail, rfl⟩ := List.exists_cons_of_ne_nil hne
  have hc : c.isDigit = true := hdigits c List.mem_cons_self
  have hne : ∀ d : Char, d.isDigit = false → c ≠ d := by
    rintro d hd rfl
    rw [hc] at hd
    contradiction
  rcases hsign with rfl | rfl
  · refine ⟨c, tail, rfl, ?_, hne '/' rfl, fun rest ↦ ?_⟩
    · simp only [isBlank, Bool.or_eq_false_iff, decide_eq_false_iff_not]
      exact ⟨⟨⟨hne ' ' rfl, hne '\t' rfl⟩, hne '\r' rfl⟩, hne '\n' rfl⟩
    · have hname : isNameStart c = false :=
        isNameStart_of_isStart (by rw [isStart, hc, Bool.or_true])
      unfold scanToken
      rw [if_neg (hne '$' rfl), if_neg (by rw [hname]; exact Bool.false_ne_true),
        if_pos (by rw [hc, Bool.true_or])]
      unfold scanNumber
      split
      · rename_i htext
        cases htext
        contradiction
      · rfl
  · refine ⟨'-', c :: tail, rfl, rfl, by decide, fun rest ↦ ?_⟩
    unfold scanToken
    rw [if_neg (by decide), if_neg (by decide), if_pos]
    · rfl
    · show (Char.isDigit '-' || (decide ('-' = '-') && c.isDigit)) = true
      rw [hc]
      rfl

theorem spells_integer (ht : t.type = .integer) (h : IsNumeral t.text) :
    t.Spells t.text := by
  obtain ⟨sign, digits, htext, hsign, hne, hdigits⟩ := h.exists_digits
  obtain ⟨c, tail, hcons, hblank, hslash, hscan⟩ := scanToken_number hsign hne hdigits
  rw [htext, hcons]
  refine spells_of_scanToken hblank (fun hc ↦ absurd hc hslash) fun rest hrest ↦ ?_
  rw [hscan, scanDigits_append hdigits, ← htext, ← ht]
  intro d hd
  have hd : ¬t.Extends d := hrest d hd
  unfold RhsToken.Extends at hd
  rw [ht] at hd
  exact ⟨Bool.eq_false_iff.mpr fun h ↦ hd (.inl h), fun h ↦ hd (.inr h)⟩

theorem spells_double (ht : t.type = .double) {numeral fraction : List Char}
    (htext : t.text = numeral ++ '.' :: fraction) (h : IsNumeral numeral)
    (hfraction : ∀ c ∈ fraction, c.isDigit = true) : t.Spells t.text := by
  obtain ⟨sign, digits, rfl, hsign, hne, hdigits⟩ := h.exists_digits
  obtain ⟨c, tail, hcons, hblank, hslash, hscan⟩ := scanToken_number hsign hne hdigits
  have hwhole : t.text = c :: (tail ++ '.' :: fraction) := by
    rw [htext, hcons]
    rfl
  rw [hwhole]
  refine spells_of_scanToken hblank (fun hc ↦ absurd hc hslash) fun rest hrest ↦ ?_
  rw [List.append_assoc, hscan, List.cons_append, scanDigits_point hdigits hfraction, ← htext,
    ← ht]
  intro d hd
  have hd : ¬t.Extends d := hrest d hd
  unfold RhsToken.Extends at hd
  rw [ht] at hd
  exact Bool.eq_false_iff.mpr hd

theorem isNameStart_plain (h : isNameStart c = true) :
    c ≠ '$' ∧ c ≠ '/' ∧ isBlank c = false := by
  refine ⟨?_, ?_, Bool.eq_false_iff.mpr fun hblank ↦ ?_⟩
  · rintro rfl
    contradiction
  · rintro rfl
    contradiction
  · simp only [isBlank, Bool.or_eq_true, decide_eq_true_eq] at hblank
    rcases hblank with ((rfl | rfl) | rfl) | rfl <;> contradiction

theorem spells_word (hword : IsWord t.type) {letters : List Char}
    (htext : t.text = c :: letters) (hc : isNameStart c = true)
    (hletters : ∀ d ∈ letters, isNameLetter d = true) (htype : wordType t.text = t.type) :
    t.Spells t.text := by
  obtain ⟨hdollar, hslash, hblank⟩ := isNameStart_plain hc
  have hextends : ∀ d, ¬t.Extends d → isNameLetter d = false := by
    obtain ⟨type, text⟩ := t
    obtain ⟨hsymbol, hvariable, hinteger, hdouble, hstring, herror⟩ := hword
    unfold RhsToken.Extends
    dsimp only at hsymbol hvariable hinteger hdouble hstring herror ⊢
    intro d hd
    cases type <;> first | contradiction | exact Bool.eq_false_iff.mpr hd
  rw [htext]
  refine spells_of_scanToken hblank (fun h ↦ absurd h hslash) fun rest hrest ↦ ?_
  obtain ⟨htake, hdrop⟩ := @takeWhile_append_rest isNameLetter (c :: letters) rest (by
    intro d hd
    rcases List.mem_cons.mp hd with rfl | hd
    · exact isNameLetter_of_isNameStart hc
    · exact hletters d hd) fun d hd ↦ hextends d (hrest d hd)
  unfold scanToken scanIdentifier
  rw [if_neg hdollar, if_pos hc, ← List.cons_append, htake, hdrop, ← htext]
  show ((⟨wordType t.text, t.text⟩, rest) : RhsToken × List Char) = _
  rw [htype]

theorem spells_variable (ht : t.type = .variable) {letters : List Char}
    (htext : t.text = '$' :: letters) (hletters : ∀ c ∈ letters, isNameLetter c = true) :
    t.Spells t.text := by
  rw [htext]
  refine spells_of_scanToken rfl (fun h ↦ absurd h (by decide)) fun rest hrest ↦ ?_
  obtain ⟨htake, hdrop⟩ := @takeWhile_append_rest isNameLetter letters rest hletters fun d hd ↦ by
    have hd : ¬t.Extends d := hrest d hd
    unfold RhsToken.Extends at hd
    rw [ht] at hd
    exact Bool.eq_false_iff.mpr hd
  unfold scanToken
  rw [if_pos rfl, htake, hdrop, ← htext, ← ht]

theorem spells_string (ht : t.type = .string) :
    t.Spells ('"' :: (escapeLetters t.text ++ ['"'])) := by
  refine spells_of_scanToken rfl (fun h ↦ absurd h (by decide)) fun rest _ ↦ ?_
  unfold scanToken
  rw [if_neg (by decide), if_neg (by decide), if_neg, if_pos (.inl rfl), List.append_assoc,
    List.singleton_append, scanString_escapeLetters, ← ht]
  show ¬(Char.isDigit '"' || (decide ('"' = '-') && _)) = true
  exact Bool.false_ne_true

theorem pairType_ne_equal {c d : Char} (hc : c = '=' ∨ c = '>' ∨ c = '<') (hd : d ≠ '=') :
    pairType c d = none := by
  unfold pairType
  split
  · exact absurd rfl hd
  · exact absurd rfl hd
  · exact absurd rfl hd
  · exact absurd rfl hd
  · rcases hc with hc | hc | hc <;> contradiction
  · rcases hc with hc | hc | hc <;> contradiction
  · rfl

/-- **Every token that is read has a spelling**: a string between quotes with its quotes and
backslashes escaped, and any other token by its text. -/
theorem exists_spelling (hwf : WellFormed t) (ht : t.type ≠ .error) :
    ∃ spelling, t.Spells spelling := by
  have hletter : ∀ c : Char, IsSymbolLetter c → letterType c = t.type → t.text = [c] → c ≠ '/' →
      c ≠ '-' → (∀ d, ¬t.Extends d → pairType c d = none) → ∃ spelling, t.Spells spelling :=
    fun c hc htype htext hslash hminus hpair ↦
      ⟨_, spells_letter hc htype htext (fun h ↦ absurd h hslash) (fun h ↦ absurd h hminus) hpair⟩
  have hpair : ∀ c d : Char, IsSymbolLetter c → c ≠ '-' → c ≠ '/' → pairType c d = some t.type →
      t.text = [c, d] → ∃ spelling, t.Spells spelling :=
    fun c d hc hminus hslash hpair htext ↦ ⟨_, spells_pair hc hminus hslash hpair htext⟩
  have hword : IsWord t.type → (∃ c letters, t.text = c :: letters ∧ isNameStart c = true ∧
      (∀ d ∈ letters, isNameLetter d = true) ∧ wordType t.text = t.type) →
      ∃ spelling, t.Spells spelling := by
    rintro hword ⟨c, letters, htext, hc, hletters, htype⟩
    exact ⟨_, spells_word hword htext hc hletters htype⟩
  obtain ⟨type, text⟩ := t
  unfold WellFormed at hwf
  dsimp only at hwf ht hletter hpair hword
  cases type with
  | error => exact absurd rfl ht
  | string => exact ⟨_, spells_string rfl⟩
  | «variable» =>
    obtain ⟨letters, htext, hletters⟩ := hwf
    exact ⟨_, spells_variable rfl htext hletters⟩
  | integer => exact ⟨_, spells_integer rfl hwf⟩
  | double =>
    obtain ⟨numeral, fraction, htext, hnumeral, hfraction⟩ := hwf
    exact ⟨_, spells_double rfl htext hnumeral hfraction⟩
  | minus =>
    refine ⟨_, spells_letter (c := '-') (by decide) rfl hwf nofun ?_ fun _ _ ↦ rfl⟩
    exact fun _ d hd ↦ Bool.eq_false_iff.mpr hd
  | slash =>
    exact ⟨_, spells_letter (c := '/') (by decide) rfl hwf (fun _ ↦ rfl) nofun fun _ _ ↦ rfl⟩
  | assign =>
    exact hletter '=' (by decide) rfl hwf (by decide) (by decide) fun d hd ↦
      pairType_ne_equal (.inl rfl) hd
  | gt =>
    exact hletter '>' (by decide) rfl hwf (by decide) (by decide) fun d hd ↦
      pairType_ne_equal (.inr (.inl rfl)) hd
  | lt =>
    exact hletter '<' (by decide) rfl hwf (by decide) (by decide) fun d hd ↦
      pairType_ne_equal (.inr (.inr rfl)) hd
  | lbrace => exact hletter '{' (by decide) rfl hwf (by decide) (by decide) fun _ _ ↦ rfl
  | rbrace => exact hletter '}' (by decide) rfl hwf (by decide) (by decide) fun _ _ ↦ rfl
  | lparen => exact hletter '(' (by decide) rfl hwf (by decide) (by decide) fun _ _ ↦ rfl
  | rparen => exact hletter ')' (by decide) rfl hwf (by decide) (by decide) fun _ _ ↦ rfl
  | comma => exact hletter ',' (by decide) rfl hwf (by decide) (by decide) fun _ _ ↦ rfl
  | dot => exact hletter '.' (by decide) rfl hwf (by decide) (by decide) fun _ _ ↦ rfl
  | plus => exact hletter '+' (by decide) rfl hwf (by decide) (by decide) fun _ _ ↦ rfl
  | star => exact hletter '*' (by decide) rfl hwf (by decide) (by decide) fun _ _ ↦ rfl
  | mod => exact hletter '%' (by decide) rfl hwf (by decide) (by decide) fun _ _ ↦ rfl
  | caret => exact hletter '^' (by decide) rfl hwf (by decide) (by decide) fun _ _ ↦ rfl
  | question => exact hletter '?' (by decide) rfl hwf (by decide) (by decide) fun _ _ ↦ rfl
  | colon => exact hletter ':' (by decide) rfl hwf (by decide) (by decide) fun _ _ ↦ rfl
  | ge => exact hpair '>' '=' (by decide) (by decide) (by decide) rfl hwf
  | le => exact hpair '<' '=' (by decide) (by decide) (by decide) rfl hwf
  | eq => exact hpair '=' '=' (by decide) (by decide) (by decide) rfl hwf
  | ne => exact hpair '!' '=' (by decide) (by decide) (by decide) rfl hwf
  | and => exact hpair '&' '&' (by decide) (by decide) (by decide) rfl hwf
  | or => exact hpair '|' '|' (by decide) (by decide) (by decide) rfl hwf
  | _ => exact hword (by decide) hwf

theorem wellFormed_of_mem_tokens {text : List Char}
    (h : t ∈ reader.tokens text) : WellFormed t := by
  obtain ⟨text, rest, hnext⟩ := TokenReader.exists_next_of_mem_tokens h
  have hnext : next text = some (t, rest) := hnext
  unfold next at hnext
  split at hnext
  · contradiction
  · rename_i c tail _
    have hwf := scanToken_wellFormed c tail
    rwa [Option.some.inj hnext] at hwf

/-- A number without a sign has a spelling that a minus is extended by. -/
theorem not_apart_of_isGlued {t t' : RhsToken} (hwf : WellFormed t') (h : IsGlued t t') :
    ¬reader.Apart t t' := by
  obtain ⟨hminus, htype, hhead⟩ := h
  have hspells : t'.Spells t'.text := by
    unfold WellFormed at hwf
    rcases htype with htype | htype
    · rw [htype] at hwf
      exact spells_integer htype hwf
    · rw [htype] at hwf
      obtain ⟨numeral, fraction, htext, hnumeral, hfraction⟩ := hwf
      exact spells_double htype htext hnumeral hfraction
  intro hapart
  obtain ⟨c, tail, htext⟩ := List.exists_cons_of_ne_nil hspells.ne_nil
  have hbegins := beginsWith_of_spells hwf (htext ▸ hspells)
  have hdigit : c.isDigit = true := by
    have hnumber : t'.text.head? = some c ∧ (c = '-' ∨ c.isDigit = true) := by
      unfold BeginsWith at hbegins
      rcases htype with htype | htype <;> rwa [htype] at hbegins
    rcases hnumber with ⟨hc, rfl | hdigit⟩
    · exact absurd hc hhead
    · exact hdigit
  refine hapart t'.text hspells c (by rw [htext]; rfl) ?_
  show t.Extends c
  unfold RhsToken.Extends
  rw [hminus]
  exact hdigit

/-- **When white space does not matter.** Every layout of tokens that may follow each other is read
as these tokens if and only if no minus stands before a number without a sign. -/
theorem layouts_read_iff {ts : List RhsToken}
    (hwf : ∀ t ∈ ts, WellFormed t ∧ t.type ≠ .error) (hmeets : ts.IsChain Meets) :
    (∀ text, reader.Layout ts text → reader.tokens text = ts) ↔
      ts.IsChain fun t t' ↦ ¬IsGlued t t' := by
  have hmem : ∀ {a b : RhsToken} {l₁ l₂ : List RhsToken}, ts = l₁ ++ a :: b :: l₂ → b ∈ ts := by
    rintro a b l₁ l₂ rfl
    simp
  rw [List.isChain_iff_forall_rel_of_append_cons_cons] at hmeets
  constructor
  · intro hlayouts
    have hapart : ts.IsChain reader.Apart := by
      refine TokenReader.isChain_of_layouts (fun t ht ↦ exists_spelling (hwf t ht).1 (hwf t ht).2)
        ?_ hlayouts
      rw [List.isChain_iff_forall_rel_of_append_cons_cons]
      intro a b l₁ l₂ hts
      by_cases hglued : IsGlued a b
      · exact .inr (readsOn_minus hglued.1)
      · exact .inl (apart_of_meets (hmeets hts) (hwf b (hmem hts)).1 hglued)
    rw [List.isChain_iff_forall_rel_of_append_cons_cons] at hapart ⊢
    intro a b l₁ l₂ hts hglued
    exact not_apart_of_isGlued (hwf b (hmem hts)).1 hglued (hapart hts)
  · intro hglued text hlayout
    rw [List.isChain_iff_forall_rel_of_append_cons_cons] at hglued
    refine hlayout.tokens_eq ?_
    rw [List.isChain_iff_forall_rel_of_append_cons_cons]
    intro a b l₁ l₂ hts
    exact apart_of_meets (hmeets hts) (hwf b (hmem hts)).1 (hglued hts)

end RhsLexer

end RulesForge
