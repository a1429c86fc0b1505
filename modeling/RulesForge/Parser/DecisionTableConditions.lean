import RulesForge.Parser.DecisionTableConstraints

/-!
# The conditions of decision tables

A condition cell is a pattern whose body is an expression of constraints
(`parse_condition_pattern`, `parse_constraint_expr_recursive` in `src/decision_table_compiler.cpp`).
A body is split at `or` first, its parts at commas and theirs at `and`, each part after the
parentheses around it are taken off. What is split no further is a constraint.

An **expression** here is put together from comparisons and lists of literals, parentheses and the
three connectives, `and` under commas and commas under `or` unless parentheses say otherwise. Its
text, with any white space, is compiled to its tree.
-/

namespace RulesForge

namespace DecisionTable

/-! ### Compilation -/

/-- `build_logical_node`. -/
def buildLogicalNode (parse : List Char → Option ConstraintNode) (parts : List (List Char))
    (type : List ConstraintNode → ConstraintNode) : Option ConstraintNode :=
  if parts.length ≤ 1 then none else (parts.mapM parse).map type

section Compilation

variable (stod : List Char → Option Double)

/-- `parse_constraint_expr_recursive`. A part is shorter than what is split, so the length bounds
the rounds. -/
def parseConstraintExprRounds : ℕ → List Char → Option ConstraintNode
  | 0, _ => none
  | rounds + 1, text =>
    let normalized := stripOuterParens text
    let parse := parseConstraintExprRounds rounds
    buildLogicalNode parse (splitTopLevelLogical normalized "or".toList) .or <|>
      buildLogicalNode parse (splitTopLevelComma normalized) .and <|>
      buildLogicalNode parse (splitTopLevelLogical normalized "and".toList) .and <|>
      (parseConstraintText stod normalized).map .leaf

def parseConstraintExprRecursive (text : List Char) : Option ConstraintNode :=
  parseConstraintExprRounds stod (text.length + 1) text

theorem mapM_congr_of_mem {parse parse' : List Char → Option ConstraintNode}
    {parts : List (List Char)} (h : ∀ part ∈ parts, parse part = parse' part) :
    parts.mapM parse = parts.mapM parse' := by
  induction parts with
  | nil => rfl
  | cons part parts ih =>
    rw [List.mapM_cons, List.mapM_cons, h part List.mem_cons_self,
      ih fun part' hpart ↦ h part' (List.mem_cons_of_mem part hpart)]

/-- A node depends on its parts alone. -/
theorem buildLogicalNode_congr {parse parse' : List Char → Option ConstraintNode}
    {parts : List (List Char)} {type : List ConstraintNode → ConstraintNode}
    (h : 2 ≤ parts.length → ∀ part ∈ parts, parse part = parse' part) :
    buildLogicalNode parse parts type = buildLogicalNode parse' parts type := by
  rw [buildLogicalNode, buildLogicalNode]
  split_ifs with hone
  · rfl
  · rw [mapM_congr_of_mem (h (Nat.lt_of_not_le hone))]

/-- The length of a text bounds the rounds. -/
theorem parseConstraintExprRounds_eq {rounds rounds' : ℕ} {text : List Char}
    (h : text.length < rounds) (h' : text.length < rounds') :
    parseConstraintExprRounds stod rounds text = parseConstraintExprRounds stod rounds' text := by
  induction rounds generalizing rounds' text with
  | zero => exact absurd h (Nat.not_lt_zero _)
  | succ rounds ih =>
    cases rounds' with
    | zero => exact absurd h' (Nat.not_lt_zero _)
    | succ rounds' =>
      have hstrip := length_stripOuterParens_le text
      have hnode : ∀ (separator : Char → List Char → Option ℕ) (type),
          buildLogicalNode (parseConstraintExprRounds stod rounds)
              (splitTopLevel separator {} 0 ' ' [] (stripOuterParens text)) type =
            buildLogicalNode (parseConstraintExprRounds stod rounds')
              (splitTopLevel separator {} 0 ' ' [] (stripOuterParens text)) type := by
        intro separator type
        refine buildLogicalNode_congr fun hlength part hpart ↦ ?_
        have hshort := length_part_lt rfl hlength part hpart
        exact ih (by omega) (by omega)
      rw [parseConstraintExprRounds, parseConstraintExprRounds, splitTopLevelLogical,
        splitTopLevelLogical, splitTopLevelComma, hnode, hnode, hnode]

/-- The scan for the parenthesis that closes the first one: the text before it and after it. -/
def closeFirst : Scanner → List Char → List Char → Option (List Char × List Char)
  | _, _, [] => none
  | s, inside, c :: rest =>
    let s' := s.next closeUnclamped c
    if s.quoted c then closeFirst s' (inside ++ [c]) rest
    else if c = ')' ∧ s'.depth = 0 then some (inside, rest)
    else if c = ')' ∧ s'.depth < 0 then none
    else closeFirst s' (inside ++ [c]) rest

/-- The qualifier at the front of a pattern. -/
def patternType (text : List Char) : PatternType × List Char :=
  if startsWithCi text "not ".toList then (.not, trimAscii (text.drop 4))
  else if startsWithCi text "exists ".toList then (.exists, trimAscii (text.drop 7))
  else (.standard, text)

/-- The variable at the front of a pattern. -/
def patternBinding (text : List Char) : Option (List Char × List Char) :=
  if text.head? = some '$' then
    if ':' ∈ text then
      some (trimAscii (text.takeWhile (· ≠ ':')), trimAscii (text.dropWhile (· ≠ ':')).tail)
    else none
  else some ([], text)

/-- The tree of what stands between the parentheses, if anything does. -/
def patternRoot (body : List Char) : Option (Option ConstraintNode) :=
  if body = [] then some none else (parseConstraintExprRecursive stod body).map some

/-- `parse_condition_pattern`. -/
def parseConditionPattern (text : List Char) : Option ParsedPattern := do
  let (type, text) := patternType (trimAscii text)
  let (binding, text) ← patternBinding text
  let factType := trimAscii (text.takeWhile (· ≠ '('))
  guard ('(' ∈ text ∧ factType ≠ [])
  let (inside, after) ← closeFirst {} [] (text.dropWhile (· ≠ '('))
  guard (trimAscii after = [])
  let root ← patternRoot stod (trimAscii inside.tail)
  return { type := type, binding := String.ofList binding, factType := String.ofList factType,
           constraintRoot := root }

end Compilation

/-! ### Connectives -/

/-- The connectives in the order in which a text is split at them. -/
inductive Connective where
  | or | comma | and
  deriving DecidableEq

namespace Connective

def level : Connective → ℕ
  | or => 0
  | comma => 1
  | and => 2

def word : Connective → List Char
  | or => "or".toList
  | comma => ",".toList
  | and => "and".toList

def separator (k : Connective) : Char → List Char → Option ℕ :=
  match k with
  | comma => commaSeparator
  | k => logicalSeparator k.word

def node : Connective → List ConstraintNode → ConstraintNode
  | or => .or
  | comma => .and
  | and => .and

/-- What a connective says of the two sides of it. -/
def holds : Connective → Bool → Bool → Bool
  | or => (· || ·)
  | comma => (· && ·)
  | and => (· && ·)

/-- A connective between two parts: a comma, or a word with white space around it. -/
def IsJoint : Connective → List Char → Prop
  | comma, joint => ∃ spaces spaces', joint = spaces ++ (',' :: spaces') ∧ Blank spaces ∧
      Blank spaces'
  | k, joint => ∃ spaces word spaces', joint = spaces ++ (word ++ spaces') ∧
      lowerCase word = k.word ∧ Blank spaces ∧ Blank spaces' ∧ spaces ≠ [] ∧ spaces' ≠ []

end Connective

/-! ### Texts without a connective -/

/-- What holds of the letters of a text is decided letter by letter, not for every letter there
is. -/
scoped instance decidableLetters (p : Char → Prop) [DecidablePred p] (text : List Char) :
    Decidable (∀ c ∈ text, p c) :=
  List.decidableBAll p text

/-- A letter of a word: no white space, no mark and no comma. -/
def isWordLetter (c : Char) : Bool :=
  !isSpace c && !isMark c && c ≠ ','

/-- White space, a comma or a parenthesis ends a word. -/
def endsWord (c : Char) : Prop := isSpace c = true ∨ isMark c = true ∨ c = ','

/-- A text in which no scan finds a certain separator, whatever stands before it. -/
def Solid (separator : Char → List Char → Option ℕ) (text : List Char) : Prop :=
  ∀ before rest, Stopped endsWord rest → Inert separator (atDepth 0) before text rest

section Solid

variable {k : Connective} {text text' spaces word rest : List Char} {c before : Char}

theorem atTop_atDepth (c : Char) : (atDepth 0).atTop c = !isMark c := by
  simp only [Scanner.atTop, Scanner.quoted, atDepth, isMark]
  cases decide (c = '"') <;> cases decide (c = '\'') <;> simp

theorem isBoundary_of_isWordLetter (hc : isWordLetter c = true) : isBoundary c = false := by
  simp only [isWordLetter, isMark, Bool.and_eq_true, Bool.not_eq_true', Bool.or_eq_false_iff] at hc
  obtain ⟨⟨hspace, ⟨-, hopen⟩, hclose⟩, -⟩ := hc
  rw [isBoundary, hspace, hopen, hclose]
  rfl

theorem separator_comma (hc : c ≠ ',') : commaSeparator before (c :: rest) = none := by
  refine if_neg fun hhead ↦ hc ?_
  exact Option.some.inj hhead

/-- A letter that ends a word is no letter of one, in no case. -/
theorem toLower_of_endsWord (hc : endsWord c) : c.toLower = c ∧ isWordLetter c = false := by
  rcases hc with hspace | hmark | rfl
  · exact ⟨toLower_of_isSpace hspace, by simp [isWordLetter, hspace]⟩
  · simp only [isMark, Bool.or_eq_true, decide_eq_true_eq] at hmark
    rcases hmark with ((rfl | rfl) | rfl) | rfl <;> exact ⟨rfl, rfl⟩
  · exact ⟨rfl, rfl⟩

/-- A connective that stands at the front of a word is the word. -/
theorem eq_of_startsWithCi {kw : List Char}
    (hkw : ∀ c ∈ kw, isWordLetter c = true ∧ c.toLower = c)
    (hword : ∀ c ∈ word, isWordLetter c = true) (hrest : Stopped endsWord rest)
    (hstart : startsWithCi (word ++ rest) kw = true)
    (hafter : isBoundary (((word ++ rest).drop kw.length).headD ' ') = true) :
    lowerCase word = kw := by
  induction kw generalizing word with
  | nil =>
    cases word with
    | nil => rfl
    | cons c word =>
      have hc := isBoundary_of_isWordLetter (hword c List.mem_cons_self)
      exact absurd (hc.symm.trans hafter) Bool.false_ne_true
  | cons b kw ih =>
    obtain ⟨hb, hlower⟩ := hkw b List.mem_cons_self
    cases word with
    | nil =>
      cases rest with
      | nil => cases hstart
      | cons r rest =>
        obtain ⟨hr, hletter⟩ := toLower_of_endsWord (stopped_cons.mp hrest)
        rw [List.nil_append, startsWithCi_cons, Bool.and_eq_true, decide_eq_true_eq, hr,
          hlower] at hstart
        rw [hstart.1, hb] at hletter
        cases hletter
    | cons c word =>
      rw [List.cons_append, startsWithCi_cons, Bool.and_eq_true, decide_eq_true_eq,
        hlower] at hstart
      have hrest' := ih (fun d hd ↦ hkw d (List.mem_cons_of_mem b hd))
        (fun d hd ↦ hword d (List.mem_cons_of_mem c hd)) hstart.2 hafter
      show c.toLower :: lowerCase word = b :: kw
      rw [hstart.1, hrest']

/-- Within a word there is no connective. -/
theorem inert_inside {kw : List Char} (hword : ∀ c ∈ word, isWordLetter c = true)
    (hbefore : isBoundary before = false) :
    Inert (logicalSeparator kw) (atDepth 0) before word rest := by
  induction word generalizing before with
  | nil => trivial
  | cons c word ih =>
    have hc := hword c List.mem_cons_self
    have hmark : isMark c = false := by
      simp only [isWordLetter, Bool.and_eq_true, Bool.not_eq_true'] at hc
      exact hc.1.2
    refine ⟨fun _ ↦ ?_, ?_⟩
    · rw [logicalSeparator, hbefore, Bool.and_false, Bool.false_and, if_neg Bool.false_ne_true]
    · rw [next_plain hmark]
      exact ih (fun d hd ↦ hword d (List.mem_cons_of_mem c hd)) (isBoundary_of_isWordLetter hc)

theorem solid_comma (hword : ∀ c ∈ text, isMark c = false ∧ c ≠ ',') :
    Solid commaSeparator text := by
  intro before rest _
  induction text generalizing before with
  | nil => trivial
  | cons c text ih =>
    obtain ⟨hmark, hcomma⟩ := hword c List.mem_cons_self
    refine ⟨fun _ ↦ separator_comma hcomma, ?_⟩
    rw [next_plain hmark]
    exact ih (fun d hd ↦ hword d (List.mem_cons_of_mem c hd)) c

theorem Connective.word_letters (hk : k ≠ .comma) :
    ∀ c ∈ k.word, isWordLetter c = true ∧ c.toLower = c := by
  have hor : ∀ c ∈ "or".toList, isWordLetter c = true ∧ c.toLower = c := by decide
  have hand : ∀ c ∈ "and".toList, isWordLetter c = true ∧ c.toLower = c := by decide
  cases k with
  | or => exact hor
  | comma => exact absurd rfl hk
  | and => exact hand

theorem Connective.separator_logical (hk : k ≠ .comma) :
    k.separator = logicalSeparator k.word := by
  cases k with
  | comma => exact absurd rfl hk
  | _ => rfl

/-- A word that is no connective is passed. -/
theorem solid_word (hword : ∀ c ∈ word, isWordLetter c = true)
    (hne : k ≠ .comma → lowerCase word ≠ k.word) : Solid k.separator word := by
  by_cases hk : k = .comma
  · subst hk
    refine solid_comma fun c hc ↦ ?_
    have hletter := hword c hc
    simp only [isWordLetter, Bool.and_eq_true, Bool.not_eq_true', decide_eq_true_eq] at hletter
    exact ⟨hletter.1.2, hletter.2⟩
  · rw [Connective.separator_logical hk]
    intro before rest hrest
    cases word with
    | nil => trivial
    | cons c word =>
      have hc := hword c List.mem_cons_self
      have hmark : isMark c = false := by
        simp only [isWordLetter, Bool.and_eq_true, Bool.not_eq_true'] at hc
        exact hc.1.2
      refine ⟨fun _ ↦ if_neg fun hfound ↦ ?_, ?_⟩
      · rw [Bool.and_eq_true, Bool.and_eq_true] at hfound
        exact hne hk (eq_of_startsWithCi (Connective.word_letters hk) hword hrest hfound.1.1
          hfound.2)
      · rw [next_plain hmark]
        exact inert_inside (fun d hd ↦ hword d (List.mem_cons_of_mem c hd))
          (isBoundary_of_isWordLetter hc)

theorem solid_quoted {quote : Char} {body : List Char} (hquote : quote = '"' ∨ quote = '\'')
    (hbody : quote ∉ body) : Solid k.separator (quote :: body ++ [quote]) :=
  fun _ _ _ ↦ inert_quoted hquote hbody

theorem Balanced.solid_parenthesised (h : Balanced text) :
    Solid k.separator ('(' :: text ++ [')']) :=
  fun _ _ _ ↦ h.inert_parenthesised

/-- No word begins with a letter that ends words. -/
theorem separator_of_endsWord (hk : k ≠ .comma) (hc : endsWord c) :
    k.separator before (c :: rest) = none := by
  obtain ⟨hlower, hletter⟩ := toLower_of_endsWord hc
  rw [Connective.separator_logical hk]
  refine if_neg fun hfound ↦ ?_
  rw [Bool.and_eq_true, Bool.and_eq_true] at hfound
  have hletters := Connective.word_letters hk
  cases hword : k.word with
  | nil => cases k <;> cases hword
  | cons b kw =>
    rw [hword] at hfound hletters
    obtain ⟨hb, hlower'⟩ := hletters b List.mem_cons_self
    have hstart := hfound.1.1
    rw [startsWithCi_cons, Bool.and_eq_true, decide_eq_true_eq, hlower, hlower'] at hstart
    rw [hstart.1, hb] at hletter
    cases hletter

theorem isMark_of_isSpace (hc : isSpace c = true) : isMark c = false := by
  refine Bool.eq_false_iff.mpr fun hmark ↦ ?_
  simp only [isMark, Bool.or_eq_true, decide_eq_true_eq] at hmark
  rcases hmark with ((rfl | rfl) | rfl) | rfl <;> cases hc

/-- White space is passed, whatever follows. -/
theorem inert_blank (hspaces : Blank spaces) :
    Inert k.separator (atDepth 0) before spaces rest := by
  induction spaces generalizing before with
  | nil => trivial
  | cons c spaces ih =>
    have hc := hspaces c List.mem_cons_self
    refine ⟨fun _ ↦ ?_, ?_⟩
    · by_cases hk : k = .comma
      · subst hk
        have hcomma : c ≠ ',' := by
          rintro rfl
          cases hc
        exact @separator_comma _ c before hcomma
      · exact separator_of_endsWord hk (.inl hc)
    · rw [next_plain (isMark_of_isSpace hc)]
      exact ih fun d hd ↦ hspaces d (List.mem_cons_of_mem c hd)

theorem isWordLetter_or_endsWord (c : Char) : isWordLetter c = true ∨ endsWord c := by
  by_cases hspace : isSpace c = true
  · exact .inr (.inl hspace)
  · by_cases hmark : isMark c = true
    · exact .inr (.inr (.inl hmark))
    · by_cases hcomma : c = ','
      · exact .inr (.inr (.inr hcomma))
      · refine .inl ?_
        rw [isWordLetter, Bool.eq_false_iff.mpr hspace, Bool.eq_false_iff.mpr hmark,
          decide_eq_true hcomma]
        rfl

theorem isWordLetter_of_lt (hc : 44 < c.toNat) : isWordLetter c = true := by
  refine (isWordLetter_or_endsWord c).resolve_right fun hends ↦ ?_
  rcases hends with hspace | hmark | rfl
  · have hsmall := toNat_of_isSpace hspace
    omega
  · simp only [isMark, Bool.or_eq_true, decide_eq_true_eq] at hmark
    rcases hmark with ((rfl | rfl) | rfl) | rfl <;> exact absurd hc (by decide)
  · exact absurd hc (by decide)

/-- The lower case of a word's letter is one. -/
theorem isWordLetter_of_lowerCase_letter (hc : isWordLetter c = true) :
    isWordLetter c.toLower = true := by
  by_cases hupper : c.val ≥ 'A'.val ∧ c.val ≤ 'Z'.val
  · refine isWordLetter_of_lt ?_
    show 44 < c.toLower.val.toNat
    have hlow : 65 ≤ c.val.toNat := hupper.1
    have hhigh : c.val.toNat ≤ 90 := hupper.2
    have hshift : ('a'.val - 'A'.val).toNat = 32 := rfl
    rw [val_toLower hupper, UInt32.toNat_add, hshift]
    omega
  · rw [toLower_of_not_upper hupper]
    exact hc

/-- A connective is a word in whatever case. -/
theorem isWordLetter_of_lowerCase (hk : k ≠ .comma) (hword : lowerCase word = k.word) :
    ∀ c ∈ word, isWordLetter c = true := by
  intro c hc
  rcases isWordLetter_or_endsWord c with hletter | hends
  · exact hletter
  · obtain ⟨hlower, hletter⟩ := toLower_of_endsWord hends
    have hmem : c.toLower ∈ k.word := hword ▸ List.mem_map_of_mem hc
    rw [hlower] at hmem
    exact absurd ((Connective.word_letters hk c hmem).1.symm.trans hletter) (by decide)

theorem startsWithCi_of_lowerCase {kw : List Char} (hword : lowerCase word = kw)
    (hkw : ∀ c ∈ kw, c.toLower = c) (rest : List Char) :
    startsWithCi (word ++ rest) kw = true := by
  induction word generalizing kw with
  | nil =>
    obtain rfl : kw = [] := hword.symm
    exact startsWithCi_nil
  | cons c word ih =>
    obtain rfl : kw = c.toLower :: lowerCase word := hword.symm
    rw [List.cons_append, startsWithCi_cons, hkw c.toLower List.mem_cons_self,
      ih rfl fun d hd ↦ hkw d (List.mem_cons_of_mem _ hd), decide_eq_true rfl]
    rfl

theorem splitTopLevel_skip {separator : Char → List Char → Option ℕ} {s : Scanner}
    {current : List Char} : splitTopLevel separator s text.length before current (text ++ rest) =
      splitTopLevel separator s 0 (lastLetter before text) current rest := by
  induction text generalizing before with
  | nil => rfl
  | cons c text ih =>
    have hlast : lastLetter before (c :: text) = lastLetter c text := by
      cases text <;> rfl
    rw [List.cons_append, List.length_cons, splitTopLevel, ih, hlast]

theorem lastLetter_append (text : List Char) (c : Char) (before : Char) :
    lastLetter before (text ++ [c]) = c := by
  simp [lastLetter]

/-- White space that ends with white space is a boundary. -/
theorem isBoundary_lastLetter (hspaces : Blank spaces) (hne : spaces ≠ []) :
    isBoundary (lastLetter before spaces) = true := by
  have hlast := List.dropLast_concat_getLast hne
  rw [← hlast, lastLetter_append, isBoundary, hspaces _ (List.getLast_mem hne)]
  rfl

theorem Connective.IsJoint.logical {joint : List Char} (h : k.IsJoint joint) (hk : k ≠ .comma) :
    ∃ spaces word spaces', joint = spaces ++ (word ++ spaces') ∧ lowerCase word = k.word ∧
      Blank spaces ∧ Blank spaces' ∧ spaces ≠ [] ∧ spaces' ≠ [] := by
  cases k with
  | comma => exact absurd rfl hk
  | or => exact h
  | and => exact h

/-- The letters of a joint, with what the split makes of them. -/
theorem Connective.IsJoint.letters {joint : List Char} (h : k.IsJoint joint) :
    ∃ spaces c tail spaces', joint = spaces ++ (c :: tail ++ spaces') ∧ Blank spaces ∧
      Blank spaces' ∧ (∀ d ∈ c :: tail, isMark d = false) ∧
      ∀ before rest, k.separator (lastLetter before spaces) (c :: tail ++ (spaces' ++ rest)) =
        some tail.length := by
  by_cases hk : k = .comma
  · subst hk
    obtain ⟨spaces, spaces', rfl, hspaces, hspaces'⟩ := h
    exact ⟨spaces, ',', [], spaces', rfl, hspaces, hspaces', by decide, fun _ _ ↦ rfl⟩
  · obtain ⟨spaces, word, spaces', rfl, hword, hspaces, hspaces', hne, hne'⟩ := h.logical hk
    have hlength : word.length = k.word.length := by
      rw [← hword, lowerCase, List.length_map]
    have hletters := isWordLetter_of_lowerCase hk hword
    cases word with
    | nil => cases k <;> cases hlength
    | cons c tail =>
      refine ⟨spaces, c, tail, spaces', rfl, hspaces, hspaces', fun d hd ↦ ?_, fun before rest ↦ ?_⟩
      · have hletter := hletters d hd
        simp only [isWordLetter, Bool.and_eq_true, Bool.not_eq_true'] at hletter
        exact hletter.1.2
      · have hstart : startsWithCi (c :: tail ++ (spaces' ++ rest)) k.word = true :=
          startsWithCi_of_lowerCase hword (fun d hd ↦ (Connective.word_letters hk d hd).2) _
        have hafter : isBoundary ((spaces' ++ rest).headD ' ') = true := by
          obtain ⟨d, spaces', rfl⟩ := List.exists_cons_of_ne_nil hne'
          show isBoundary d = true
          rw [isBoundary, hspaces' d List.mem_cons_self]
          rfl
        rw [Connective.separator_logical hk, logicalSeparator, hstart,
          isBoundary_lastLetter hspaces hne, ← hlength, List.drop_left, hafter]
        rfl

/-- **A split at its connective**: the text before it is a part, white space begins the next. -/
theorem splitTopLevel_joint {joint current : List Char} (hjoint : k.IsJoint joint) :
    ∃ spaces spaces' before', Blank spaces ∧ Blank spaces' ∧
      splitTopLevel k.separator (atDepth 0) 0 before current (joint ++ rest) =
        flushCurrent (current ++ spaces) ++
          splitTopLevel k.separator (atDepth 0) 0 before' spaces' rest := by
  obtain ⟨spaces, c, tail, spaces', rfl, hspaces, hspaces', hmarks, hfound⟩ := hjoint.letters
  refine ⟨spaces, spaces', lastLetter (lastLetter c tail) spaces', hspaces, hspaces', ?_⟩
  have htop : (atDepth 0).atTop c = true := by
    rw [atTop_atDepth, hmarks c List.mem_cons_self]
    rfl
  have hsplit : spaces ++ (c :: tail ++ spaces') ++ rest =
      spaces ++ (c :: (tail ++ (spaces' ++ rest))) := by simp
  rw [hsplit, splitTopLevel_inert (inert_blank hspaces), (balanced_of_blank hspaces).run
    closes_clamped (Int.le_refl 0), splitTopLevel, if_pos htop]
  have hseparator := hfound before rest
  rw [List.cons_append] at hseparator
  rw [hseparator]
  show flushCurrent (current ++ spaces) ++ splitTopLevel _ _ tail.length c []
    (tail ++ (spaces' ++ rest)) = _
  rw [splitTopLevel_skip, splitTopLevel_inert (inert_blank hspaces'),
    (balanced_of_blank hspaces').run closes_clamped (Int.le_refl 0), List.nil_append]

theorem stopped_of_blank (hspaces : Blank spaces) (hne : spaces ≠ []) :
    Stopped endsWord (spaces ++ rest) := by
  obtain ⟨c, spaces, rfl⟩ := List.exists_cons_of_ne_nil hne
  exact stopped_cons.mpr (.inl (hspaces c List.mem_cons_self))

theorem balanced_of_word (hword : ∀ c ∈ word, isWordLetter c = true) : Balanced word := by
  refine .of_plain fun c hc ↦ ?_
  have hletter := hword c hc
  simp only [isWordLetter, Bool.and_eq_true, Bool.not_eq_true'] at hletter
  exact hletter.1.2

theorem Connective.word_injective {k k' : Connective} (h : k.word = k'.word) : k = k' := by
  cases k <;> cases k' <;> first | rfl | cases h

/-- The joint of a connective is passed by a split at another. -/
theorem Connective.IsJoint.inert {k' : Connective} {joint : List Char} (h : k.IsJoint joint)
    (hk : k' ≠ k) : Inert k'.separator (atDepth 0) before joint rest := by
  by_cases hcomma : k = .comma
  · subst hcomma
    obtain ⟨spaces, spaces', rfl, hspaces, hspaces'⟩ := h
    rw [inert_append, (balanced_of_blank hspaces).run closes_clamped (Int.le_refl 0)]
    refine ⟨inert_blank hspaces, fun _ ↦ separator_of_endsWord hk (.inr (.inr rfl)), ?_⟩
    rw [next_plain rfl]
    exact inert_blank hspaces'
  · obtain ⟨spaces, word, spaces', rfl, hword, hspaces, hspaces', -, hne⟩ := h.logical hcomma
    have hletters := isWordLetter_of_lowerCase hcomma hword
    have hsolid : Solid k'.separator word := solid_word hletters fun _ heq ↦
      hk (Connective.word_injective (heq.symm.trans hword))
    rw [inert_append, inert_append, (balanced_of_blank hspaces).run closes_clamped (Int.le_refl 0),
      (balanced_of_word hletters).run closes_clamped (Int.le_refl 0)]
    exact ⟨inert_blank hspaces, hsolid _ _ (stopped_of_blank hspaces' hne), inert_blank hspaces'⟩

/-- What follows a joint ends the word before it. -/
theorem Connective.IsJoint.stops {joint : List Char} (h : k.IsJoint joint) :
    Stopped endsWord (joint ++ rest) := by
  by_cases hcomma : k = .comma
  · subst hcomma
    obtain ⟨spaces, spaces', rfl, hspaces, -⟩ := h
    cases spaces with
    | nil => exact stopped_cons.mpr (.inr (.inr rfl))
    | cons c spaces => exact stopped_cons.mpr (.inl (hspaces c List.mem_cons_self))
  · obtain ⟨spaces, word, spaces', rfl, -, hspaces, -, hne, -⟩ := h.logical hcomma
    rw [List.append_assoc]
    exact stopped_of_blank hspaces hne

end Solid

/-! ### Parts with a connective between them -/

/-- Parts with joints between them. -/
inductive Joined (k : Connective) : List (List Char) → List Char → Prop
  | one (part : List Char) : Joined k [part] part
  | cons {part joint text : List Char} {parts : List (List Char)} : k.IsJoint joint →
      Joined k parts text → Joined k (part :: parts) (part ++ (joint ++ text))

/-- A part that a split leaves whole. -/
structure IsPart (k : Connective) (part : List Char) : Prop where
  tight : Tight part
  balanced : Balanced part
  solid : Solid k.separator part

section Joined

variable {k k' : Connective} {text text' spaces : List Char} {parts parts' : List (List Char)}
  {before : Char}

theorem Joined.ne_nil (h : Joined k parts text) : parts ≠ [] := by
  cases h <;> exact List.cons_ne_nil _ _

/-- **A split gives the parts.** -/
theorem Joined.split (h : Joined k parts text) (hparts : ∀ part ∈ parts, IsPart k part)
    (hspaces : Blank spaces) :
    splitTopLevel k.separator (atDepth 0) 0 before spaces text = parts := by
  induction h generalizing before spaces with
  | one part =>
    have hpart := hparts part List.mem_cons_self
    have hinert := hpart.solid before [] stopped_nil
    have hsplit := @splitTopLevel_inert _ before part [] spaces _ hinert
    rw [List.append_nil] at hsplit
    rw [hsplit, splitTopLevel]
    have hflush := flushCurrent_padded hspaces blank_nil hpart.tight
    rwa [List.append_nil] at hflush
  | @cons part joint text parts hjoint _ ih =>
    have hpart := hparts part List.mem_cons_self
    have hinert := hpart.solid before (joint ++ text) hjoint.stops
    rw [splitTopLevel_inert hinert, hpart.balanced.run closes_clamped (Int.le_refl 0)]
    obtain ⟨after, spaces', before', hafter, hspaces', hsplit⟩ :=
      @splitTopLevel_joint k text (lastLetter before part) joint (spaces ++ part) hjoint
    rw [hsplit, flushCurrent_padded hspaces hafter hpart.tight,
      ih (fun part hmem ↦ hparts part (List.mem_cons_of_mem _ hmem)) hspaces']
    rfl

theorem Connective.IsJoint.balanced {joint : List Char} (h : k.IsJoint joint) :
    Balanced joint := by
  obtain ⟨spaces, c, tail, spaces', rfl, hspaces, hspaces', hmarks, -⟩ := h.letters
  exact (balanced_of_blank hspaces).append
    ((Balanced.of_plain hmarks).append (balanced_of_blank hspaces'))

theorem Joined.balanced (h : Joined k parts text) (hparts : ∀ part ∈ parts, Balanced part) :
    Balanced text := by
  induction h with
  | one part => exact hparts part List.mem_cons_self
  | cons hjoint _ ih =>
    exact (hparts _ List.mem_cons_self).append
      (hjoint.balanced.append (ih fun part hmem ↦ hparts part (List.mem_cons_of_mem _ hmem)))

theorem Joined.tight (h : Joined k parts text) (hparts : ∀ part ∈ parts, Tight part) :
    Tight text := by
  induction h with
  | one part => exact hparts part List.mem_cons_self
  | @cons part joint text parts _ _ ih =>
    have htext := (hparts part List.mem_cons_self).append
      (ih fun part hmem ↦ hparts part (List.mem_cons_of_mem _ hmem)) joint
    rwa [List.append_assoc] at htext

/-- Joined parts are passed by a split at another connective. -/
theorem Joined.solid (h : Joined k parts text) (hk : k' ≠ k)
    (hbalanced : ∀ part ∈ parts, Balanced part)
    (hparts : ∀ part ∈ parts, Solid k'.separator part) : Solid k'.separator text := by
  induction h with
  | one part => exact hparts part List.mem_cons_self
  | @cons part joint text parts hjoint hjoined ih =>
    intro before rest hrest
    have htext := ih (fun part hmem ↦ hbalanced part (List.mem_cons_of_mem _ hmem))
      (fun part hmem ↦ hparts part (List.mem_cons_of_mem _ hmem))
    rw [inert_append, inert_append,
      (hbalanced part List.mem_cons_self).run closes_clamped (Int.le_refl 0),
      hjoint.balanced.run closes_clamped (Int.le_refl 0), List.append_assoc]
    exact ⟨hparts part List.mem_cons_self before _ hjoint.stops, hjoint.inert hk,
      htext _ rest hrest⟩

theorem Joined.append {joint : List Char} (h : Joined k parts text) (hjoint : k.IsJoint joint)
    (h' : Joined k parts' text') : Joined k (parts ++ parts') (text ++ (joint ++ text')) := by
  induction h with
  | one part => exact .cons hjoint h'
  | cons hjoint' _ ih => simpa using Joined.cons hjoint' ih

end Joined

/-! ### Items -/

/-- A token that is compiled as the parser of rules compiles it: an integer in range, a text
without its quote and without line breaks, or a truth value. -/
def IsDirect : LiteralToken → Prop
  | .integer negative digits _ _ => fitsInt64 (signedValue negative digits) = true
  | .string token => token.quote ∉ token.body ∧ ∀ c ∈ token.body, c ≠ '\n' ∧ c ≠ '\r'
  | .bool _ => True

/-- A field that is no connective. -/
structure IsFieldName (field : List Char) : Prop where
  isField : IsField field
  ne_or : lowerCase field ≠ Connective.or.word
  ne_and : lowerCase field ≠ Connective.and.word

/-- **The items**: a comparison of a field with a literal, and a field in a list of literals, each
with the constraint that the grammar of rules makes of it. -/
inductive IsItem : List Char → ParsedConstraint → Prop
  | comparison {field spaces spaces' : List Char} {t s : Char} {operator : List Char × CompareOp}
      {token : LiteralToken} : IsFieldName field → isSpace t = true → Blank spaces →
      operator ∈ directOperators → operator.2 ≠ .in ∧ operator.2 ≠ .notIn → isSpace s = true →
      Blank spaces' → IsDirect token →
      IsItem (field ++ t :: (spaces ++ (operator.1 ++ s :: (spaces' ++ token.text))))
        (LiteralItem.comparison none (String.ofList field) operator.2 token).constraint
  | inList {field spaces spaces' front back text : List Char} {t s : Char} {negated : Bool}
      {tokens : List LiteralToken} : IsFieldName field → isSpace t = true → Blank spaces →
      isSpace s = true → Blank spaces' → Blank front → Blank back →
      (∀ c ∈ front ++ text ++ back, c ≠ '\n' ∧ c ≠ '\r') →
      Joined .comma (tokens.map LiteralToken.text) text → (∀ token ∈ tokens, IsDirect token) →
      IsItem (field ++ t :: (spaces ++ ((if negated then "not in".toList else "in".toList) ++
          s :: (spaces' ++ ('(' :: (front ++ text ++ back) ++ [')'])))))
        (LiteralItem.inList negated (String.ofList field) tokens).constraint

section Items

variable {k : Connective} {text text' spaces word : List Char}

/-- Two texts with white space between them. -/
theorem Solid.append_blank (h : Solid k.separator text) (hbalanced : Balanced text)
    (hspaces : Blank spaces) (hne : spaces ≠ []) (h' : Solid k.separator text') :
    Solid k.separator (text ++ (spaces ++ text')) := by
  intro before rest hrest
  rw [inert_append, inert_append, hbalanced.run closes_clamped (Int.le_refl 0),
    (balanced_of_blank hspaces).run closes_clamped (Int.le_refl 0), List.append_assoc]
  exact ⟨h before _ (stopped_of_blank hspaces hne), inert_blank hspaces, h' _ rest hrest⟩

theorem solid_of_ne (hletters : ∀ c ∈ word, isWordLetter c = true)
    (hor : lowerCase word ≠ Connective.or.word) (hand : lowerCase word ≠ Connective.and.word)
    (k : Connective) : Solid k.separator word := by
  refine solid_word hletters fun hk ↦ ?_
  cases k with
  | or => exact hor
  | comma => exact absurd rfl hk
  | and => exact hand

theorem solid_operator {operator : List Char × CompareOp} (hop : operator ∈ directOperators)
    (k : Connective) : Solid k.separator operator.1 ∧ Balanced operator.1 := by
  have hmarks : ∀ op ∈ directOperators, ∀ c ∈ op.1, isMark c = false := by decide
  refine ⟨?_, .of_plain (hmarks operator hop)⟩
  -- an operator is a word or two
  have hwords : ∀ op ∈ directOperators, (∀ c ∈ op.1, isWordLetter c = true) ∧
        lowerCase op.1 ≠ Connective.or.word ∧ lowerCase op.1 ≠ Connective.and.word ∨
      ∃ word ∈ ["contains".toList, "matches".toList, "in".toList],
        op.1 = "not".toList ++ (" ".toList ++ word) := by decide
  rcases hwords operator hop with ⟨hletters, hor, hand⟩ | ⟨word, hword, heq⟩
  · exact solid_of_ne hletters hor hand k
  · have hall : ∀ word ∈ ["contains".toList, "matches".toList, "in".toList],
        (∀ c ∈ word, isWordLetter c = true) ∧ lowerCase word ≠ Connective.or.word ∧
          lowerCase word ≠ Connective.and.word := by decide
    obtain ⟨hletters, hor, hand⟩ := hall word hword
    rw [heq]
    have hspace : Blank " ".toList := by
      intro c hc
      obtain rfl : c = ' ' := List.mem_singleton.mp hc
      rfl
    have hnot := @solid_of_ne "not".toList (by decide) (by decide) (by decide) k
    exact hnot.append_blank (.of_plain (by decide)) hspace (by decide)
      (solid_of_ne hletters hor hand k)

theorem IsField.wordLetters {field : List Char} (h : IsField field) :
    ∀ c ∈ field, isWordLetter c = true := by
  intro c hc
  refine isWordLetter_of_lt ?_
  have hletter := h.letters c hc
  simp only [isFieldLetter, Bool.or_eq_true, decide_eq_true_eq] at hletter
  rcases hletter with (halpha | rfl) | rfl
  · have hle := le_toNat_of_isAlphanum halpha
    omega
  · decide
  · decide

theorem IsFieldName.isPart {field : List Char} (h : IsFieldName field) (k : Connective) :
    Solid k.separator field ∧ Balanced field :=
  ⟨solid_of_ne h.isField.wordLetters h.ne_or h.ne_and k, balanced_of_word h.isField.wordLetters⟩

/-- The letters of an integer. -/
theorem lt_toNat_of_mem_integer {negative : Bool} {digits : List Char}
    (hdigits : digits.all Char.isDigit = true) :
    ∀ c ∈ (if negative then '-' :: digits else digits), 44 < c.toNat := by
  have hdigit : ∀ c ∈ digits, 44 < c.toNat := by
    intro c hc
    have hrange := range_of_isDigit (List.all_eq_true.mp hdigits c hc)
    omega
  cases negative with
  | true =>
    intro c hc
    rcases List.mem_cons.mp hc with rfl | hc
    · decide
    · exact hdigit c hc
  | false => exact hdigit

theorem lowerCase_integer_ne {negative : Bool} {digits : List Char} (hne : digits ≠ [])
    (hdigits : digits.all Char.isDigit = true) {d : Char} {tail : List Char}
    (hd : d.isAlpha = true) :
    lowerCase (if negative then '-' :: digits else digits) ≠ d :: tail := by
  cases negative with
  | true => exact lowerCase_ne_of_head rfl hd
  | false =>
    obtain ⟨c, digits, rfl⟩ := List.exists_cons_of_ne_nil hne
    exact lowerCase_ne_of_head
      (isAlpha_of_isDigit (List.all_eq_true.mp hdigits c List.mem_cons_self)) hd

/-- A direct token is a part of every split. -/
theorem IsDirect.isPart {token : LiteralToken} (h : IsDirect token) (k : Connective) :
    IsPart k token.text := by
  refine ⟨tight_token token, ?_, ?_⟩
  · cases token with
    | integer negative digits hne hdigits =>
      exact balanced_of_word fun c hc ↦ isWordLetter_of_lt (lt_toNat_of_mem_integer hdigits c hc)
    | string token => exact .quoted token.isQuote h.1 .nil
    | bool b => cases b <;> exact balanced_of_word (by decide)
  · cases token with
    | integer negative digits hne hdigits =>
      exact solid_of_ne
        (fun c hc ↦ isWordLetter_of_lt (lt_toNat_of_mem_integer hdigits c hc))
        (lowerCase_integer_ne hne hdigits rfl) (lowerCase_integer_ne hne hdigits rfl) k
    | string token => exact solid_quoted token.isQuote h.1
    | bool b => cases b <;> exact solid_of_ne (by decide) (by decide) (by decide) k

theorem IsDirect.fits {token : LiteralToken} (h : IsDirect token) : FitsInt64 token := by
  cases token with
  | integer negative digits _ _ => exact h
  | _ => trivial

theorem IsDirect.isRightSide {token : LiteralToken} (h : IsDirect token) :
    DecisionTable.isRightSide token.text = true := by
  have hline : ∀ c ∈ token.text, c ≠ '\n' ∧ c ≠ '\r' := by
    cases token with
    | integer negative digits hne hdigits =>
      intro c hc
      have hlt := lt_toNat_of_mem_integer hdigits c hc
      constructor <;> rintro rfl <;> exact absurd hlt (by decide)
    | string token =>
      intro c hc
      rcases List.mem_cons.mp hc with rfl | hc
      · rcases token.isQuote with hquote | hquote <;> rw [hquote] <;> decide
      · rcases List.mem_append.mp hc with hc | hc
        · exact h.2 c hc
        · obtain rfl := List.mem_singleton.mp hc
          rcases token.isQuote with hquote | hquote <;> rw [hquote] <;> decide
    | bool b => cases b <;> decide
  rw [DecisionTable.isRightSide, Bool.and_eq_true, List.all_eq_true]
  refine ⟨?_, fun c hc ↦ ?_⟩
  · rw [List.isEmpty_eq_false_iff.mpr (tight_token token).ne_nil]
    rfl
  · obtain ⟨hn, hr⟩ := hline c hc
    rw [Bool.and_eq_true, decide_eq_true_eq, decide_eq_true_eq]
    exact ⟨hn, hr⟩

/-- A relation is a part of every split when its right side is one. -/
theorem relation_isPart {field spaces' rhs : List Char} {t s : Char}
    {operator : List Char × CompareOp} (hfield : IsFieldName field) (ht : isSpace t = true)
    (hspaces : Blank spaces) (hop : operator ∈ directOperators) (hs : isSpace s = true)
    (hspaces' : Blank spaces') (hrhs : IsPart k rhs) :
    IsPart k (field ++ t :: (spaces ++ (operator.1 ++ s :: (spaces' ++ rhs)))) ∧
      fullyWrapped (field ++ t :: (spaces ++ (operator.1 ++ s :: (spaces' ++ rhs)))) = false := by
  obtain ⟨hfieldSolid, hfieldBalanced⟩ := hfield.isPart k
  obtain ⟨hopSolid, hopBalanced⟩ := solid_operator hop k
  have hblank : Blank (t :: spaces) := by
    intro c hc
    rcases List.mem_cons.mp hc with rfl | hc
    · exact ht
    · exact hspaces c hc
  have hblank' : Blank (s :: spaces') := by
    intro c hc
    rcases List.mem_cons.mp hc with rfl | hc
    · exact hs
    · exact hspaces' c hc
  have hfieldTight := hfield.isField.tight
  have hsplit : field ++ t :: (spaces ++ (operator.1 ++ s :: (spaces' ++ rhs))) =
      field ++ (t :: spaces ++ (operator.1 ++ (s :: spaces' ++ rhs))) := by simp
  rw [hsplit]
  refine ⟨⟨?_, ?_, ?_⟩, ?_⟩
  · have htight := hfieldTight.append hrhs.tight (t :: spaces ++ (operator.1 ++ s :: spaces'))
    simpa using htight
  · exact hfieldBalanced.append ((balanced_of_blank hblank).append
      (hopBalanced.append ((balanced_of_blank hblank').append hrhs.balanced)))
  · exact hfieldSolid.append_blank hfieldBalanced hblank (List.cons_ne_nil t spaces)
      (hopSolid.append_blank hopBalanced hblank' (List.cons_ne_nil s spaces') hrhs.solid)
  · exact fullyWrapped_of_front hfieldBalanced hfieldTight.ne_nil
      (List.append_ne_nil_of_left_ne_nil (List.cons_ne_nil t _) _)

variable {stod : List Char → Option Double}

theorem mapM_parseLiteral {tokens : List LiteralToken}
    (htokens : ∀ token ∈ tokens, IsDirect token) :
    (tokens.map LiteralToken.text).mapM (parseLiteral stod) =
      some (tokens.map primaryExprVal) := by
  induction tokens with
  | nil => rfl
  | cons token tokens ih =>
    have htoken := (@parseLiteral_token_iff stod token).mpr
      (htokens token List.mem_cons_self).fits
    rw [List.map_cons, List.mapM_cons, htoken,
      ih fun token hmem ↦ htokens token (List.mem_cons_of_mem _ hmem)]
    rfl

/-- A list of tokens in parentheses is read as their values. -/
theorem parseRhsListValues_tokens {front back : List Char} {tokens : List LiteralToken}
    (hfront : Blank front) (hback : Blank back)
    (hjoined : Joined .comma (tokens.map LiteralToken.text) text)
    (htokens : ∀ token ∈ tokens, IsDirect token) :
    parseRhsListValues stod ('(' :: (front ++ text ++ back) ++ [')']) =
      some (tokens.map primaryExprVal) := by
  have hparts : ∀ part ∈ tokens.map LiteralToken.text, IsPart .comma part := by
    intro part hpart
    obtain ⟨token, hmem, rfl⟩ := List.mem_map.mp hpart
    exact (htokens token hmem).isPart .comma
  have htext : Tight text := hjoined.tight fun part hpart ↦ (hparts part hpart).tight
  have hne := hjoined.ne_nil
  have htrim : trimAscii ('(' :: (front ++ text ++ back) ++ [')']) =
      '(' :: (front ++ text ++ back) ++ [')'] :=
    Tight.trim ⟨⟨'(', _, rfl, rfl⟩, ⟨'(' :: (front ++ text ++ back), ')', rfl, rfl⟩⟩
  have hsplit : splitTopLevelComma text = tokens.map LiteralToken.text :=
    hjoined.split hparts blank_nil
  have hlist : ¬ (('(' :: (front ++ text ++ back) ++ [')']).length < 2 ∨
      ('(' :: (front ++ text ++ back) ++ [')']).head? ≠ some '(' ∨
      ('(' :: (front ++ text ++ back) ++ [')']).getLast? ≠ some ')') := by
    rintro (hlength | hhead | hlast)
    · simp only [List.cons_append, List.length_cons, List.length_append] at hlength
      omega
    · exact hhead rfl
    · exact hlast List.getLast?_concat
  rw [parseRhsListValues]
  simp only [htrim, if_neg hlist, between_parenthesised, trimAscii_padded hfront hback htext,
    if_neg htext.ne_nil, hsplit, if_neg hne, mapM_parseLiteral htokens]

/-- An item is a relation whose right side stands for the rest of the constraint. -/
theorem IsItem.relation {c : ParsedConstraint} (h : IsItem text c) :
    ∃ field t spaces s spaces' rhs, ∃ operator ∈ directOperators,
      text = field ++ t :: (spaces ++ (operator.1 ++ s :: (spaces' ++ rhs))) ∧
      IsFieldName field ∧ isSpace t = true ∧ Blank spaces ∧ isSpace s = true ∧ Blank spaces' ∧
      (∀ k, IsPart k rhs) ∧ isRightSide rhs = true ∧
      ∀ stod, parseRhsValue stod rhs operator.2
        { leftField := String.ofList field, op := operator.2 } = some c := by
  cases h with
  | @comparison field spaces spaces' t s operator token hfield ht hspaces hop hne hs hspaces'
      htoken =>
    exact ⟨field, t, spaces, s, spaces', token.text, operator, hop, rfl, hfield, ht, hspaces, hs,
      hspaces', htoken.isPart, htoken.isRightSide, fun stod ↦
      parseRhsValue_literal hne rfl rfl ((parseLiteral_token_iff token).mpr htoken.fits)⟩
  | @inList field spaces spaces' front back text t s negated tokens hfield ht hspaces hs hspaces'
      hfront hback hline hjoined htokens =>
    have hbalanced : Balanced text := hjoined.balanced fun part hpart ↦ by
      obtain ⟨token, hmem, rfl⟩ := List.mem_map.mp hpart
      exact ((htokens token hmem).isPart .comma).balanced
    have hinner : Balanced (front ++ text ++ back) :=
      ((balanced_of_blank hfront).append hbalanced).append (balanced_of_blank hback)
    have hright : isRightSide ('(' :: (front ++ text ++ back) ++ [')']) = true := by
      rw [isRightSide, Bool.and_eq_true, List.all_eq_true]
      refine ⟨rfl, fun c hc ↦ ?_⟩
      rw [Bool.and_eq_true, decide_eq_true_eq, decide_eq_true_eq]
      rcases List.mem_cons.mp hc with rfl | hc
      · decide
      · rcases List.mem_append.mp hc with hc | hc
        · exact hline c hc
        · obtain rfl := List.mem_singleton.mp hc
          decide
    -- the operator that is written
    obtain ⟨operator, hop, htext, hin⟩ : ∃ operator ∈ directOperators,
        operator.1 = (if negated then "not in".toList else "in".toList) ∧
          operator.2 = if negated then .notIn else .in := by
      cases negated with
      | true => exact ⟨("not in".toList, .notIn), by decide, rfl, rfl⟩
      | false => exact ⟨("in".toList, .in), by decide, rfl, rfl⟩
    have hlist : operator.2 = .in ∨ operator.2 = .notIn := by
      rw [hin]
      cases negated with
      | true => exact .inr rfl
      | false => exact .inl rfl
    refine ⟨field, t, spaces, s, spaces', '(' :: (front ++ text ++ back) ++ [')'], operator, hop,
      by rw [htext], hfield, ht, hspaces, hs, hspaces', fun k ↦ ⟨?_, hinner.parenthesised,
      hinner.solid_parenthesised⟩, hright, fun stod ↦ ?_⟩
    · exact ⟨⟨'(', _, rfl, rfl⟩, ⟨'(' :: (front ++ text ++ back), ')', rfl, rfl⟩⟩
    · rw [parseRhsValue, if_pos hlist, parseRhsListValues_tokens hfront hback hjoined htokens, hin]
      rfl

/-- No split and no stripping takes an item apart. -/
theorem IsItem.isPart {c : ParsedConstraint} (h : IsItem text c) (k : Connective) :
    IsPart k text ∧ fullyWrapped text = false := by
  obtain ⟨field, t, spaces, s, spaces', rhs, operator, hop, rfl, hfield, ht, hspaces, hs, hspaces',
    hrhs, -, -⟩ := h.relation
  exact relation_isPart hfield ht hspaces hop hs hspaces' (hrhs k)

/-- **Items are compiled** as the grammar has them. -/
theorem IsItem.parse {c : ParsedConstraint} (h : IsItem text c) :
    parseConstraintText stod text = some c := by
  obtain ⟨field, t, spaces, s, spaces', rhs, operator, hop, rfl, hfield, ht, hspaces, hs, hspaces',
    hrhs, hright, hparse⟩ := h.relation
  rw [parseConstraintText_relation hfield.isField ht hop hspaces hs hspaces' (hrhs .or).tight
    hright]
  exact hparse stod

end Items

/-! ### Expressions -/

/-- An expression as it is written. -/
inductive ConditionExpr where
  | item (text : List Char) (constraint : ParsedConstraint)
  | parens (spaces : List Char) (inner : ConditionExpr) (spaces' : List Char)
  | joined (connective : Connective) (left : ConditionExpr) (joint : List Char)
      (right : ConditionExpr)

namespace ConditionExpr

def text : ConditionExpr → List Char
  | item text _ => text
  | parens spaces inner spaces' => '(' :: (spaces ++ inner.text ++ spaces') ++ [')']
  | joined _ left joint right => left.text ++ (joint ++ right.text)

/-- How tightly an expression is bound. -/
def level : ConditionExpr → ℕ
  | joined connective _ _ _ => connective.level
  | _ => 3

/-- Connectives that bind more loosely stand in parentheses. -/
def WellFormed : ConditionExpr → Prop
  | item text constraint => IsItem text constraint
  | parens spaces inner spaces' => Blank spaces ∧ Blank spaces' ∧ inner.WellFormed
  | joined connective left joint right => connective.IsJoint joint ∧
      (left.WellFormed ∧ connective.level ≤ left.level) ∧
      right.WellFormed ∧ connective.level ≤ right.level

/-- The parts of an expression between the connectives of one kind. -/
def parts (k : Connective) : ConditionExpr → List ConditionExpr
  | joined connective left joint right =>
    if connective = k then left.parts k ++ right.parts k
    else [joined connective left joint right]
  | e => [e]

mutual

/-- The tree that is meant: parts between connectives of one kind are the children of one node. -/
def tree : ConditionExpr → ConstraintNode
  | item _ constraint => .leaf constraint
  | parens _ inner _ => inner.tree
  | joined connective left _ right =>
    connective.node (left.children connective ++ right.children connective)

def children : ConditionExpr → Connective → List ConstraintNode
  | item _ constraint, _ => [.leaf constraint]
  | parens _ inner _, _ => [inner.tree]
  | joined connective left _ right, k =>
    if connective = k then left.children k ++ right.children k
    else [connective.node (left.children connective ++ right.children connective)]

end

variable {k : Connective} {e part : ConditionExpr}

theorem children_eq (e : ConditionExpr) (k : Connective) :
    e.children k = (e.parts k).map tree := by
  induction e with
  | item text constraint => rfl
  | parens spaces inner spaces' _ => rfl
  | joined connective left joint right ihleft ihright =>
    rw [children, parts]
    split_ifs with hk
    · rw [ihleft, ihright, List.map_append]
    · rfl

theorem tree_joined (connective : Connective) (left : ConditionExpr) (joint : List Char)
    (right : ConditionExpr) : (joined connective left joint right).tree =
      connective.node (((joined connective left joint right).parts connective).map tree) := by
  rw [tree, children_eq, children_eq, parts, if_pos rfl, List.map_append]

theorem joined_parts (h : e.WellFormed) (k : Connective) :
    Joined k ((e.parts k).map text) e.text := by
  induction e with
  | item text constraint => exact .one _
  | parens spaces inner spaces' _ => exact .one _
  | joined connective left joint right ihleft ihright =>
    obtain ⟨hjoint, ⟨hleft, -⟩, hright, -⟩ := h
    rw [parts]
    split_ifs with hk
    · subst hk
      rw [List.map_append]
      exact (ihleft hleft).append hjoint (ihright hright)
    · exact .one _

theorem Connective.level_injective {k k' : Connective} (h : k.level = k'.level) : k = k' := by
  cases k <;> cases k' <;> first | rfl | cases h

/-- The parts are well formed, and bound more tightly. -/
theorem wellFormed_parts (h : e.WellFormed) (hk : k.level ≤ e.level) :
    ∀ part ∈ e.parts k, part.WellFormed ∧ k.level < part.level := by
  have hthree : k.level < 3 := by cases k <;> decide
  induction e with
  | item text constraint =>
    intro part hpart
    obtain rfl := List.mem_singleton.mp hpart
    exact ⟨h, hthree⟩
  | parens spaces inner spaces' _ =>
    intro part hpart
    obtain rfl := List.mem_singleton.mp hpart
    exact ⟨h, hthree⟩
  | joined connective left joint right ihleft ihright =>
    have hjoined := h
    obtain ⟨-, ⟨hleft, hleftLevel⟩, hright, hrightLevel⟩ := h
    intro part hpart
    rw [parts] at hpart
    split_ifs at hpart with hconnective
    · subst hconnective
      rcases List.mem_append.mp hpart with hpart | hpart
      · exact ihleft hleft hleftLevel part hpart
      · exact ihright hright hrightLevel part hpart
    · obtain rfl := List.mem_singleton.mp hpart
      refine ⟨hjoined, lt_of_le_of_ne hk fun heq ↦ hconnective ?_⟩
      exact (Connective.level_injective heq).symm

theorem two_le_length_parts (connective : Connective) (left : ConditionExpr) (joint : List Char)
    (right : ConditionExpr) :
    2 ≤ ((joined connective left joint right).parts connective).length := by
  have hne : ∀ e : ConditionExpr, 1 ≤ (e.parts connective).length := by
    intro e
    induction e with
    | item text constraint => exact Nat.le_refl 1
    | parens spaces inner spaces' _ => exact Nat.le_refl 1
    | joined k left joint right ihleft _ =>
      rw [parts]
      split_ifs
      · rw [List.length_append]
        omega
      · exact Nat.le_refl 1
  have hleft := hne left
  have hright := hne right
  rw [parts, if_pos rfl, List.length_append]
  omega

theorem tight_balanced (h : e.WellFormed) : Tight e.text ∧ Balanced e.text := by
  induction e with
  | item text constraint =>
    obtain ⟨hitem, -⟩ := h.isPart .or
    exact ⟨hitem.tight, hitem.balanced⟩
  | parens spaces inner spaces' ih =>
    obtain ⟨hspaces, hspaces', hinner⟩ := h
    exact ⟨⟨⟨'(', _, rfl, rfl⟩, ⟨'(' :: (spaces ++ inner.text ++ spaces'), ')', rfl, rfl⟩⟩,
      (((balanced_of_blank hspaces).append (ih hinner).2).append
        (balanced_of_blank hspaces')).parenthesised⟩
  | joined connective left joint right ihleft ihright =>
    obtain ⟨hjoint, ⟨hleft, -⟩, hright, -⟩ := h
    obtain ⟨hleftTight, hleftBalanced⟩ := ihleft hleft
    obtain ⟨hrightTight, hrightBalanced⟩ := ihright hright
    refine ⟨?_, hleftBalanced.append (hjoint.balanced.append hrightBalanced)⟩
    have htight := hleftTight.append hrightTight joint
    rwa [List.append_assoc] at htight

/-- A split at a connective that binds more loosely leaves an expression whole. -/
theorem solid (h : e.WellFormed) (hk : k.level < e.level) : Solid k.separator e.text := by
  induction e with
  | item text constraint => exact (h.isPart k).1.solid
  | parens spaces inner spaces' _ =>
    obtain ⟨hspaces, hspaces', hinner⟩ := h
    exact (((balanced_of_blank hspaces).append (tight_balanced hinner).2).append
      (balanced_of_blank hspaces')).solid_parenthesised
  | joined connective left joint right ihleft ihright =>
    obtain ⟨hjoint, ⟨hleft, hleftLevel⟩, hright, hrightLevel⟩ := h
    have hne : k ≠ connective := by
      rintro rfl
      exact absurd hk (Nat.lt_irrefl _)
    have hjoined : Joined connective [left.text, right.text] (left.text ++ (joint ++ right.text)) :=
      .cons hjoint (.one right.text)
    refine hjoined.solid hne ?_ ?_
    · simpa using ⟨(tight_balanced hleft).2, (tight_balanced hright).2⟩
    · simpa using ⟨ihleft hleft (lt_of_lt_of_le hk hleftLevel),
        ihright hright (lt_of_lt_of_le hk hrightLevel)⟩

theorem isPart (h : e.WellFormed) (hk : k.level < e.level) : IsPart k e.text :=
  ⟨(tight_balanced h).1, (tight_balanced h).2, solid h hk⟩

/-- An expression without parentheses around it. -/
def IsOpen : ConditionExpr → Prop
  | parens _ _ _ => False
  | _ => True

theorem fullyWrapped_text (h : e.WellFormed) (hopen : e.IsOpen) : fullyWrapped e.text = false := by
  cases e with
  | item text constraint => exact (h.isPart .or).2
  | parens spaces inner spaces' => exact hopen.elim
  | joined connective left joint right =>
    obtain ⟨-, ⟨hleft, -⟩, hright, -⟩ := h
    exact fullyWrapped_of_front (tight_balanced hleft).2 (tight_balanced hleft).1.ne_nil
      (List.append_ne_nil_of_right_ne_nil joint (tight_balanced hright).1.ne_nil)

theorem strip_open (h : e.WellFormed) (hopen : e.IsOpen) : stripOuterParens e.text = e.text := by
  rw [stripOuterParens_eq, (tight_balanced h).1.trim, fullyWrapped_text h hopen,
    if_neg Bool.false_ne_true]

/-- Stripping finds the expression in the parentheses. -/
theorem exists_stripped (h : e.WellFormed) : ∃ e' : ConditionExpr, e'.WellFormed ∧ e'.IsOpen ∧
    stripOuterParens e.text = e'.text ∧ e'.tree = e.tree ∧ e'.text.length ≤ e.text.length := by
  induction e with
  | item text constraint => exact ⟨_, h, trivial, strip_open h trivial, rfl, Nat.le_refl _⟩
  | joined connective left joint right _ _ =>
    exact ⟨_, h, trivial, strip_open h trivial, rfl, Nat.le_refl _⟩
  | parens spaces inner spaces' ih =>
    obtain ⟨hspaces, hspaces', hinner⟩ := h
    obtain ⟨e', he', hopen, hstrip, htree, hlength⟩ := ih hinner
    have hbalanced : Balanced (spaces ++ inner.text ++ spaces') :=
      ((balanced_of_blank hspaces).append (tight_balanced hinner).2).append
        (balanced_of_blank hspaces')
    have htight : Tight ('(' :: (spaces ++ inner.text ++ spaces') ++ [')']) :=
      ⟨⟨'(', _, rfl, rfl⟩, ⟨'(' :: (spaces ++ inner.text ++ spaces'), ')', rfl, rfl⟩⟩
    have htrim := trimAscii_padded hspaces hspaces' (tight_balanced hinner).1
    refine ⟨e', he', hopen, ?_, htree, ?_⟩
    · rw [← hstrip]
      show stripOuterParens ('(' :: (spaces ++ inner.text ++ spaces') ++ [')']) = _
      rw [stripOuterParens_eq, htight.trim, fullyWrapped_parenthesised hbalanced, if_pos rfl,
        between_parenthesised, stripOuterParens_eq, htrim, stripOuterParens_eq inner.text,
        (tight_balanced hinner).1.trim]
    · refine le_trans hlength ?_
      simp only [text, List.cons_append, List.length_cons, List.length_append]
      omega

section Parse

variable {stod : List Char → Option Double} {parse : List Char → Option ConstraintNode}
  {text : List Char} {type : List ConstraintNode → ConstraintNode}

theorem split_part (h : IsPart k text) :
    splitTopLevel k.separator {} 0 ' ' [] text = [text] := by
  have hparts : ∀ part ∈ [text], IsPart k part := by
    intro part hpart
    obtain rfl := List.mem_singleton.mp hpart
    exact h
  exact (Joined.one text).split hparts blank_nil

theorem buildLogicalNode_single (h : IsPart k text) :
    buildLogicalNode parse (splitTopLevel k.separator {} 0 ' ' [] text) type = none := by
  rw [split_part h]
  rfl

theorem mapM_trees {es : List ConditionExpr} (h : ∀ e ∈ es, parse e.text = some e.tree) :
    (es.map ConditionExpr.text).mapM parse = some (es.map tree) := by
  induction es with
  | nil => rfl
  | cons e es ih =>
    rw [List.map_cons, List.mapM_cons, h e List.mem_cons_self,
      ih fun e hmem ↦ h e (List.mem_cons_of_mem _ hmem)]
    rfl

/-- The text is split into the texts of its parts. -/
theorem split_parts (h : e.WellFormed) (hk : k.level ≤ e.level) :
    splitTopLevel k.separator {} 0 ' ' [] e.text = (e.parts k).map ConditionExpr.text := by
  refine (joined_parts h k).split ?_ blank_nil
  intro part hpart
  obtain ⟨e', hmem, rfl⟩ := List.mem_map.mp hpart
  obtain ⟨he', hlevel⟩ := wellFormed_parts h hk e' hmem
  exact isPart he' hlevel

/-- The node of a connective is built from its parts. -/
theorem buildLogicalNode_parts (h : e.WellFormed) (hk : k.level ≤ e.level)
    (hlength : 2 ≤ (e.parts k).length)
    (hparse : ∀ part ∈ e.parts k, parse part.text = some part.tree) :
    buildLogicalNode parse (splitTopLevel k.separator {} 0 ' ' [] e.text) type =
      some (type ((e.parts k).map tree)) := by
  have hmany : ¬ ((e.parts k).map ConditionExpr.text).length ≤ 1 := by
    rw [List.length_map]
    omega
  rw [split_parts h hk, buildLogicalNode, if_neg hmany, mapM_trees hparse]
  rfl

/-- The rounds suffice for a text that is shorter. -/
theorem parseRounds_text (stod : List Char → Option Double) :
    ∀ {rounds : ℕ} {e : ConditionExpr}, e.WellFormed → e.text.length < rounds →
      parseConstraintExprRounds stod rounds e.text = some e.tree := by
  intro rounds
  induction rounds with
  | zero => exact fun _ hlength ↦ absurd hlength (Nat.not_lt_zero _)
  | succ rounds ih =>
    intro e h hlength
    obtain ⟨e', he', hopen, hstrip, htree, hshort⟩ := exists_stripped h
    rw [parseConstraintExprRounds, hstrip, ← htree]
    -- connectives that bind more loosely split nothing off
    have hnone : ∀ (k : Connective) {type}, k.level < e'.level →
        buildLogicalNode (parseConstraintExprRounds stod rounds)
          (splitTopLevel k.separator {} 0 ' ' [] e'.text) type = none :=
      fun k _ hk ↦ buildLogicalNode_single (isPart he' hk)
    cases e' with
    | parens spaces inner spaces' => exact hopen.elim
    | item text constraint =>
      have hor := @hnone .or .or (show 0 < 3 by decide)
      have hcomma := @hnone .comma .and (show 1 < 3 by decide)
      have hand := @hnone .and .and (show 2 < 3 by decide)
      rw [ConditionExpr.text] at hor hcomma hand
      show (buildLogicalNode _ (splitTopLevel Connective.or.separator {} 0 ' ' [] text) .or <|>
        buildLogicalNode _ (splitTopLevel Connective.comma.separator {} 0 ' ' [] text) .and <|>
        buildLogicalNode _ (splitTopLevel Connective.and.separator {} 0 ' ' [] text) .and <|>
        (parseConstraintText stod text).map .leaf) = some (.leaf constraint)
      rw [hor, hcomma, hand, IsItem.parse he']
      rfl
    | joined connective left joint right =>
      have hlength' := two_le_length_parts connective left joint right
      have hparts : ∀ part ∈ (joined connective left joint right).parts connective,
          parseConstraintExprRounds stod rounds part.text = some part.tree := by
        intro part hpart
        have hpartShort := length_part_lt (split_parts he' (Nat.le_refl _))
          (by simpa using hlength') part.text (List.mem_map_of_mem hpart)
        exact ih (wellFormed_parts he' (Nat.le_refl _) part hpart).1 (by omega)
      have hsome : ∀ {type}, buildLogicalNode (parseConstraintExprRounds stod rounds)
          (splitTopLevel connective.separator {} 0 ' ' []
            (joined connective left joint right).text) type = _ :=
        buildLogicalNode_parts he' (Nat.le_refl _) hlength' hparts
      rw [tree_joined]
      cases connective with
      | or =>
        have hor := @hsome .or
        show (buildLogicalNode _ (splitTopLevel Connective.or.separator {} 0 ' ' [] _) .or <|>
          _) = _
        rw [hor]
        rfl
      | comma =>
        have hor := @hnone .or .or (show 0 < 1 by decide)
        have hcomma := @hsome .and
        show (buildLogicalNode _ (splitTopLevel Connective.or.separator {} 0 ' ' [] _) .or <|>
          buildLogicalNode _ (splitTopLevel Connective.comma.separator {} 0 ' ' [] _) .and <|>
          _) = _
        rw [hor, hcomma]
        rfl
      | and =>
        have hor := @hnone .or .or (show 0 < 2 by decide)
        have hcomma := @hnone .comma .and (show 1 < 2 by decide)
        have hand := @hsome .and
        show (buildLogicalNode _ (splitTopLevel Connective.or.separator {} 0 ' ' [] _) .or <|>
          buildLogicalNode _ (splitTopLevel Connective.comma.separator {} 0 ' ' [] _) .and <|>
          buildLogicalNode _ (splitTopLevel Connective.and.separator {} 0 ' ' [] _) .and <|> _) = _
        rw [hor, hcomma, hand]
        rfl

/-- **Expressions are compiled to their trees.** -/
theorem parse_text (stod : List Char → Option Double) (h : e.WellFormed) :
    parseConstraintExprRecursive stod e.text = some e.tree :=
  parseRounds_text stod h (Nat.lt_succ_self _)

end Parse

/-! ### The meaning of expressions -/

/-- Whether an expression holds, by the constraints that do. -/
def holds (test : ParsedConstraint → Bool) : ConditionExpr → Bool
  | item _ constraint => test constraint
  | parens _ inner _ => inner.holds test
  | joined connective left _ right => connective.holds (left.holds test) (right.holds test)

/-- The constraints of an expression from left to right. -/
def constraints : ConditionExpr → List ParsedConstraint
  | item _ constraint => [constraint]
  | parens _ inner _ => inner.constraints
  | joined _ left _ right => left.constraints ++ right.constraints

section Meaning

variable {test : ParsedConstraint → Bool}

theorem node_singleton (k : Connective) (child : ConstraintNode) :
    (k.node [child]).eval test = child.eval test ∧ (k.node [child]).leaves = child.leaves := by
  cases k with
  | or => exact ⟨Bool.or_false _, List.append_nil _⟩
  | comma => exact ⟨Bool.and_true _, List.append_nil _⟩
  | and => exact ⟨Bool.and_true _, List.append_nil _⟩

theorem evalAll_append (left right : List ConstraintNode) :
    ConstraintNode.evalAll test (left ++ right) =
      (ConstraintNode.evalAll test left && ConstraintNode.evalAll test right) := by
  induction left with
  | nil => rfl
  | cons child left ih =>
    rw [List.cons_append, ConstraintNode.evalAll, ConstraintNode.evalAll, ih, Bool.and_assoc]

theorem evalAny_append (left right : List ConstraintNode) :
    ConstraintNode.evalAny test (left ++ right) =
      (ConstraintNode.evalAny test left || ConstraintNode.evalAny test right) := by
  induction left with
  | nil => rfl
  | cons child left ih =>
    rw [List.cons_append, ConstraintNode.evalAny, ConstraintNode.evalAny, ih, Bool.or_assoc]

theorem leavesAll_append (left right : List ConstraintNode) :
    ConstraintNode.leavesAll (left ++ right) =
      ConstraintNode.leavesAll left ++ ConstraintNode.leavesAll right := by
  induction left with
  | nil => rfl
  | cons child left ih =>
    rw [List.cons_append, ConstraintNode.leavesAll, ConstraintNode.leavesAll, ih,
      List.append_assoc]

/-- Children put side by side are joined by the connective of their node. -/
theorem node_append (k : Connective) (left right : List ConstraintNode) :
    (k.node (left ++ right)).eval test =
        k.holds ((k.node left).eval test) ((k.node right).eval test) ∧
      (k.node (left ++ right)).leaves = (k.node left).leaves ++ (k.node right).leaves := by
  cases k with
  | or => exact ⟨evalAny_append left right, leavesAll_append left right⟩
  | comma => exact ⟨evalAll_append left right, leavesAll_append left right⟩
  | and => exact ⟨evalAll_append left right, leavesAll_append left right⟩

/-- The tree of an expression and the children it gives to a node mean what it means. -/
theorem tree_means (e : ConditionExpr) :
    (e.tree.eval test = e.holds test ∧ e.tree.leaves = e.constraints) ∧
      ∀ k : Connective, (k.node (e.children k)).eval test = e.holds test ∧
        (k.node (e.children k)).leaves = e.constraints := by
  induction e with
  | item text constraint => exact ⟨⟨rfl, rfl⟩, fun k ↦ node_singleton k (.leaf constraint)⟩
  | parens spaces inner spaces' ih =>
    obtain ⟨⟨heval, hleaves⟩, -⟩ := ih
    refine ⟨⟨heval, hleaves⟩, fun k ↦ ?_⟩
    obtain ⟨hone, hleaf⟩ := @node_singleton test k inner.tree
    exact ⟨hone.trans heval, hleaf.trans hleaves⟩
  | joined connective left joint right ihleft ihright =>
    -- both sides give their children to the node of the connective
    obtain ⟨hleft, hleftLeaves⟩ := ihleft.2 connective
    obtain ⟨hright, hrightLeaves⟩ := ihright.2 connective
    have hnode : (connective.node (left.children connective ++ right.children connective)).eval
          test = (joined connective left joint right).holds test ∧
        (connective.node (left.children connective ++ right.children connective)).leaves =
          (joined connective left joint right).constraints := by
      obtain ⟨heval, hleaves⟩ :=
        @node_append test connective (left.children connective) (right.children connective)
      rw [hleft, hright] at heval
      rw [hleftLeaves, hrightLeaves] at hleaves
      exact ⟨heval, hleaves⟩
    refine ⟨hnode, fun k ↦ ?_⟩
    rw [children]
    split_ifs with hk
    · subst hk
      exact hnode
    · obtain ⟨hone, hleaf⟩ := @node_singleton test k
        (connective.node (left.children connective ++ right.children connective))
      exact ⟨hone.trans hnode.1, hleaf.trans hnode.2⟩

/-- **The compiler keeps the meaning of an expression**: it compiles the text to a tree that has the
constraints of the expression in their order and holds where the expression does. -/
theorem parse_holds (stod : List Char → Option Double) (h : e.WellFormed) :
    ∃ root, parseConstraintExprRecursive stod e.text = some root ∧ root.leaves = e.constraints ∧
      ∀ test, root.eval test = e.holds test :=
  ⟨e.tree, parse_text stod h, (@tree_means (fun _ ↦ true) e).1.2, fun _ ↦ (tree_means e).1.1⟩

end Meaning

/-! ### An expression -/

/-- A comparison with single spaces in it. -/
def comparisonItem (field : List Char) (operator : List Char × CompareOp) (token : LiteralToken) :
    ConditionExpr :=
  item (field ++ ' ' :: ([] ++ (operator.1 ++ ' ' :: ([] ++ token.text))))
    (LiteralItem.comparison none (String.ofList field) operator.2 token).constraint

theorem comparisonItem_wellFormed {field : List Char} {operator : List Char × CompareOp}
    {token : LiteralToken} (hfield : IsFieldName field) (hop : operator ∈ directOperators)
    (hlist : operator.2 ≠ .in ∧ operator.2 ≠ .notIn) (htoken : IsDirect token) :
    (comparisonItem field operator token).WellFormed :=
  .comparison hfield rfl blank_nil hop hlist rfl blank_nil htoken

theorem isQuote_double : '"' = '"' ∨ '"' = '\'' :=
  .inl rfl

theorem isBody_gold : isStringBody '"' "GOLD".toList = true :=
  rfl

/-- `status == "GOLD" and active != false or vip == true`. -/
def wellOff : ConditionExpr :=
  joined .or
    (joined .and
      (comparisonItem "status".toList ("==".toList, .eq)
        (.string ⟨'"', "GOLD".toList, isQuote_double, isBody_gold⟩))
      " and ".toList
      (comparisonItem "active".toList ("!=".toList, .ne) (.bool false)))
    " or ".toList
    (comparisonItem "vip".toList ("==".toList, .eq) (.bool true))

theorem wellOff_wellFormed : wellOff.WellFormed := by
  have hname : ∀ {field : List Char}, IsField field → lowerCase field ≠ Connective.or.word →
      lowerCase field ≠ Connective.and.word → IsFieldName field := fun h hor hand ↦ ⟨h, hor, hand⟩
  refine ⟨⟨[' '], "or".toList, [' '], rfl, rfl, blank_space, blank_space, by decide, by decide⟩,
    ⟨⟨⟨[' '], "and".toList, [' '], rfl, rfl, blank_space, blank_space, by decide, by decide⟩,
      ⟨?_, by decide⟩, ?_, by decide⟩, by decide⟩, ?_, by decide⟩
  · exact comparisonItem_wellFormed
      (hname ⟨'s', "tatus".toList, rfl, rfl, rfl⟩ (by decide) (by decide)) (by decide)
      (by decide) ⟨by decide, by decide⟩
  · exact comparisonItem_wellFormed
      (hname ⟨'a', "ctive".toList, rfl, rfl, rfl⟩ (by decide) (by decide)) (by decide)
      (by decide) trivial
  · exact comparisonItem_wellFormed
      (hname ⟨'v', "ip".toList, rfl, rfl, rfl⟩ (by decide) (by decide)) (by decide) (by decide)
      trivial

/-- The text of the expression is compiled with `and` under `or`. -/
theorem parse_holds_wellOff :
    wellOff.text = "status == \"GOLD\" and active != false or vip == true".toList ∧
      ∃ root, parseConstraintExprRecursive (fun _ ↦ none) wellOff.text = some root ∧
        root.leaves = wellOff.constraints ∧ ∀ test, root.eval test = wellOff.holds test :=
  ⟨rfl, parse_holds (fun _ ↦ none) wellOff_wellFormed⟩

end ConditionExpr

/-! ### Patterns -/

/-- A qualifier, in whatever case, with a space and more white space after it. -/
inductive IsQualifier : List Char → PatternType → Prop
  | standard : IsQualifier [] .standard
  | negated {word spaces : List Char} : lowerCase word = "not".toList → Blank spaces →
      IsQualifier (word ++ ' ' :: spaces) .not
  | existential {word spaces : List Char} : lowerCase word = "exists".toList → Blank spaces →
      IsQualifier (word ++ ' ' :: spaces) .exists

/-- A variable with a colon after it, or nothing. -/
inductive IsBinding : List Char → List Char → Prop
  | unbound : IsBinding [] []
  | bound {name spaces spaces' : List Char} : IsField name → Blank spaces → Blank spaces' →
      IsBinding ('$' :: name ++ (spaces ++ ':' :: spaces')) ('$' :: name)

/-- An expression or nothing between the parentheses. -/
inductive IsBody : List Char → Option ConstraintNode → Prop
  | empty {spaces : List Char} : Blank spaces → IsBody spaces none
  | expr {e : ConditionExpr} {spaces spaces' : List Char} : Blank spaces → e.WellFormed →
      Blank spaces' → IsBody (spaces ++ e.text ++ spaces') (some e.tree)

section Patterns

variable {stod : List Char → Option Double} {text rest inside word kw factType body : List Char}
  {depth : ℤ} {c : Char}

/-- A letter that leaves a parenthesis open is passed. -/
theorem closeFirst_pass {depth' : ℤ} (hquoted : (atDepth depth).quoted c = false)
    (hnext : (atDepth depth).next closeUnclamped c = atDepth depth') (hdepth : 1 ≤ depth') :
    closeFirst (atDepth depth) inside (c :: rest) =
      closeFirst (atDepth depth') (inside ++ [c]) rest := by
  have hzero : ¬ (c = ')' ∧ depth' = 0) := fun h ↦ by omega
  have hneg : ¬ (c = ')' ∧ depth' < 0) := fun h ↦ by omega
  rw [closeFirst, hnext, hquoted]
  simp only [Bool.false_eq_true, if_false]
  show (if c = ')' ∧ depth' = 0 then _ else if c = ')' ∧ depth' < 0 then _ else _) = _
  rw [if_neg hzero, if_neg hneg]

/-- The scan for the closing parenthesis passes a balanced text. -/
theorem closeFirst_nested (h : Balanced text) (hdepth : 1 ≤ depth) :
    closeFirst (atDepth depth) inside (text ++ rest) =
      closeFirst (atDepth depth) (inside ++ text) rest :=
  h.scan_nested closeFirst (fun hc ↦ by rw [closeFirst, if_pos hc]) closeFirst_pass hdepth inside

/-- The parenthesis that closes the first is found. -/
theorem closeFirst_parenthesised (h : Balanced text) (rest : List Char) :
    closeFirst {} [] ('(' :: (text ++ ')' :: rest)) = some ('(' :: text, rest) := by
  show closeFirst (atDepth 0) [] _ = _
  rw [closeFirst_pass rfl next_open (by omega), closeFirst_nested h (by omega), closeFirst]
  rfl

theorem trimAscii_blank {spaces : List Char} (h : Blank spaces) : trimAscii spaces = [] := by
  have hdrop : spaces.dropWhile isSpace = [] := List.dropWhile_eq_nil_iff.mpr h
  rw [trimAscii, hdrop]
  rfl

theorem IsBody.balanced {root : Option ConstraintNode} (h : IsBody body root) :
    Balanced body := by
  cases h with
  | empty hspaces => exact balanced_of_blank hspaces
  | expr hspaces he hspaces' =>
    exact ((balanced_of_blank hspaces).append (ConditionExpr.tight_balanced he).2).append
      (balanced_of_blank hspaces')

/-- What stands between the parentheses is compiled to its tree. -/
theorem IsBody.root {root : Option ConstraintNode} (h : IsBody body root)
    (stod : List Char → Option Double) : patternRoot stod (trimAscii body) = some root := by
  cases h with
  | empty hspaces => rw [trimAscii_blank hspaces, patternRoot, if_pos rfl]
  | @expr e spaces spaces' hspaces he hspaces' =>
    have htight := (ConditionExpr.tight_balanced he).1
    rw [trimAscii_padded hspaces hspaces' htight, patternRoot, if_neg htight.ne_nil,
      ConditionExpr.parse_text stod he]
    rfl

/-- A name that a parenthesis follows is no qualifier. -/
theorem startsWithCi_of_name (hword : ∀ c ∈ word, isWordLetter c = true)
    (hkw : ∀ b ∈ kw, isWordLetter b = true ∧ b.toLower = b) :
    startsWithCi (word ++ '(' :: rest) (kw ++ [' ']) = false := by
  induction kw generalizing word with
  | nil =>
    cases word with
    | nil => rfl
    | cons c word =>
      have hne : c.toLower ≠ (' ' : Char).toLower := by
        intro heq
        have hspace : c.toLower = ' ' := heq
        have hc := isWordLetter_of_lowerCase_letter (hword c List.mem_cons_self)
        rw [hspace] at hc
        cases hc
      rw [List.cons_append, List.nil_append, startsWithCi_cons, decide_eq_false hne]
      rfl
  | cons b kw ih =>
    obtain ⟨hb, hlower⟩ := hkw b List.mem_cons_self
    cases word with
    | nil =>
      have hne : ('(' : Char).toLower ≠ b.toLower := by
        rw [hlower]
        rintro rfl
        cases hb
      rw [List.nil_append, List.cons_append, startsWithCi_cons, decide_eq_false hne]
      rfl
    | cons c word =>
      rw [List.cons_append, List.cons_append, startsWithCi_cons,
        ih (fun d hd ↦ hword d (List.mem_cons_of_mem c hd))
          (fun d hd ↦ hkw d (List.mem_cons_of_mem b hd)), Bool.and_false]

/-- The text of a pattern after its qualifier and its variable. -/
def typeText (factType body : List Char) : List Char :=
  factType ++ '(' :: (body ++ [')'])

/-- The text of a pattern, with white space around it. -/
inductive IsPattern : List Char → ParsedPattern → Prop
  | mk {spaces qualifier bindingText binding factType body spaces' : List Char}
      {type : PatternType} {root : Option ConstraintNode} : Blank spaces →
      IsQualifier qualifier type → IsBinding bindingText binding → IsField factType →
      IsBody body root → Blank spaces' →
      IsPattern (spaces ++ (qualifier ++ (bindingText ++ typeText factType body)) ++ spaces')
        { type := type, binding := String.ofList binding, factType := String.ofList factType,
          constraintRoot := root }

theorem tight_typeText (h : IsField factType) (body : List Char) :
    Tight (typeText factType body) := by
  obtain ⟨c, tail, heq, hc⟩ := h.tight.head
  exact ⟨⟨c, tail ++ '(' :: (body ++ [')']), by rw [typeText, heq, List.cons_append], hc⟩,
    ⟨factType ++ '(' :: body, ')', by simp [typeText], rfl⟩⟩

variable {qualifier bindingText binding : List Char} {type : PatternType}

theorem IsBinding.tight (h : IsBinding bindingText binding) (hfactType : IsField factType) :
    Tight (bindingText ++ typeText factType body) := by
  have htype := tight_typeText hfactType body
  cases h with
  | unbound => exact htype
  | @bound name spaces spaces' hname _ _ =>
    obtain ⟨init, d, hlast, hd⟩ := htype.last
    exact ⟨⟨'$', _, rfl, rfl⟩,
      ⟨'$' :: name ++ (spaces ++ ':' :: spaces') ++ init, d, by simp [hlast], hd⟩⟩

theorem isSpace_of_toLower (hc : isSpace c.toLower = false) : isSpace c = false := by
  refine Bool.eq_false_iff.mpr fun hspace ↦ ?_
  rw [toLower_of_isSpace hspace, hspace] at hc
  cases hc

theorem IsQualifier.tight (h : IsQualifier qualifier type) (hrest : Tight rest) :
    Tight (qualifier ++ rest) := by
  -- a word of letters in front of a text without white space at its end
  have hfront : ∀ {word spaces kw : List Char}, lowerCase word = kw → kw ≠ [] →
      (∀ c ∈ kw, isSpace c = false) → Tight (word ++ ' ' :: spaces ++ rest) := by
    intro word spaces kw hword hne hkw
    obtain ⟨init, d, hlast, hd⟩ := hrest.last
    have hend : ∃ init d, word ++ ' ' :: spaces ++ rest = init ++ [d] ∧ isSpace d = false :=
      ⟨word ++ ' ' :: spaces ++ init, d, by simp [hlast], hd⟩
    cases word with
    | nil => exact absurd hword.symm hne
    | cons c word =>
      subst hword
      exact ⟨⟨c, word ++ ' ' :: spaces ++ rest, by simp,
        isSpace_of_toLower (hkw c.toLower List.mem_cons_self)⟩, hend⟩
  cases h with
  | standard => exact hrest
  | negated hword _ => exact hfront hword (by decide) (by decide)
  | existential hword _ => exact hfront hword (by decide) (by decide)

/-- A word and a space begin with a qualifier when the word is one. -/
theorem startsWithCi_qualifier {kw : List Char} (hword : lowerCase word = kw)
    (hkw : ∀ c ∈ kw, c.toLower = c) (rest : List Char) :
    startsWithCi (word ++ ' ' :: rest) (kw ++ [' ']) = true := by
  have hlower : lowerCase (word ++ [' ']) = kw ++ [' '] := by
    rw [lowerCase, List.map_append, ← hword]
    rfl
  have hstart := startsWithCi_of_lowerCase hlower (fun c hc ↦ by
    rcases List.mem_append.mp hc with hc | hc
    · exact hkw c hc
    · obtain rfl := List.mem_singleton.mp hc
      rfl) rest
  rwa [List.append_assoc] at hstart

/-- A variable is no qualifier. -/
theorem startsWithCi_variable (hc : c.toLower ≠ '$') (rest kw : List Char) :
    startsWithCi ('$' :: rest) (c :: kw) = false := by
  have hne : ('$' : Char).toLower ≠ c.toLower := fun heq ↦ hc (Eq.symm heq)
  rw [startsWithCi_cons, decide_eq_false hne]
  rfl

/-- What follows a qualifier. -/
theorem drop_qualifier {kw spaces rest : List Char} (hword : lowerCase word = kw)
    (hkw : ∀ c ∈ kw, c.toLower = c) (hspaces : Blank spaces) (hrest : Tight rest) :
    startsWithCi (word ++ ' ' :: spaces ++ rest) (kw ++ [' ']) = true ∧
      trimAscii ((word ++ ' ' :: spaces ++ rest).drop (kw.length + 1)) = rest := by
  have hlength : kw.length = word.length := by rw [← hword, lowerCase, List.length_map]
  rw [List.append_assoc, List.cons_append, hlength, List.drop_append,
    List.drop_eq_nil_of_le (by omega), Nat.add_sub_cancel_left]
  exact ⟨startsWithCi_qualifier hword hkw _, trimAscii_front hspaces hrest⟩

/-- A variable or a type is no qualifier. -/
theorem startsWithCi_binding (hbinding : IsBinding bindingText binding)
    (hfactType : IsField factType) (kw : List Char)
    (hkw : ∀ b ∈ c :: kw, isWordLetter b = true ∧ b.toLower = b) (hc : c.toLower ≠ '$') :
    startsWithCi (bindingText ++ typeText factType body) (c :: kw ++ [' ']) = false := by
  cases hbinding with
  | unbound => exact startsWithCi_of_name hfactType.wordLetters hkw
  | bound _ _ _ =>
    rw [List.append_assoc, List.cons_append]
    exact startsWithCi_variable hc _ _

/-- The qualifier of a pattern is read. -/
theorem patternType_text (hqualifier : IsQualifier qualifier type)
    (hbinding : IsBinding bindingText binding) (hfactType : IsField factType) :
    patternType (qualifier ++ (bindingText ++ typeText factType body)) =
      (type, bindingText ++ typeText factType body) := by
  have htight := @IsBinding.tight factType body _ _ hbinding hfactType
  cases hqualifier with
  | standard =>
    have hnot : startsWithCi (bindingText ++ typeText factType body) "not ".toList = false :=
      startsWithCi_binding hbinding hfactType ['o', 't'] (by decide) (by decide)
    have hexists : startsWithCi (bindingText ++ typeText factType body) "exists ".toList =
        false :=
      startsWithCi_binding hbinding hfactType "xists".toList (by decide) (by decide)
    rw [List.nil_append, patternType, hnot, hexists]
    rfl
  | @negated word spaces hword hspaces =>
    obtain ⟨hstart, hrest⟩ := drop_qualifier hword (by decide) hspaces htight
    exact (if_pos hstart).trans (congrArg _ hrest)
  | @existential word spaces hword hspaces =>
    obtain ⟨hstart, hrest⟩ := drop_qualifier hword (by decide) hspaces htight
    have hnot : startsWithCi (word ++ ' ' :: spaces ++ (bindingText ++ typeText factType body))
        "not ".toList = false := by
      obtain ⟨c, tail, rfl⟩ : ∃ c tail, word = c :: tail := by
        cases word with
        | nil => cases hword
        | cons c tail => exact ⟨c, tail, rfl⟩
      have hc : c.toLower = 'e' := (List.cons.inj hword).1
      show startsWithCi (c :: _) ('n' :: "ot ".toList) = false
      rw [startsWithCi_cons, hc]
      rfl
    rw [patternType, hnot, if_neg Bool.false_ne_true]
    exact (if_pos hstart).trans (congrArg _ hrest)

/-- The variable of a pattern is read. -/
theorem patternBinding_text (hbinding : IsBinding bindingText binding)
    (hfactType : IsField factType) :
    patternBinding (bindingText ++ typeText factType body) =
      some (binding, typeText factType body) := by
  have htight := tight_typeText hfactType body
  cases hbinding with
  | unbound =>
    obtain ⟨c, tail, rfl, hc, htail⟩ := hfactType
    have hne : ((c :: tail) ++ '(' :: (body ++ [')'])).head? ≠ some '$' := by
      intro heq
      obtain rfl := Option.some.inj heq
      cases hc
    rw [List.nil_append, patternBinding, typeText, if_neg hne]
  | @bound name spaces spaces' hname hspaces hspaces' =>
    have hvariable : Tight ('$' :: name) := by
      obtain ⟨init, d, hlast, hd⟩ := hname.tight.last
      exact ⟨⟨'$', name, rfl, rfl⟩, ⟨'$' :: init, d, by rw [hlast, List.cons_append], hd⟩⟩
    have hcolon : ∀ d ∈ '$' :: name ++ spaces, decide (d ≠ ':') = true := by
      intro d hd
      refine decide_eq_true ?_
      rcases List.mem_append.mp hd with hd | hd
      · rcases List.mem_cons.mp hd with rfl | hd
        · decide
        · rintro rfl
          exact absurd (hname.letters _ hd) (by decide)
      · rintro rfl
        exact absurd (hspaces _ hd) (by decide)
    have hsplit : '$' :: name ++ (spaces ++ ':' :: spaces') ++ typeText factType body =
        '$' :: name ++ spaces ++ ':' :: (spaces' ++ typeText factType body) := by simp
    have hhead : ('$' :: name ++ spaces ++ ':' :: (spaces' ++ typeText factType body)).head? =
        some '$' := by simp
    have hmem : ':' ∈ '$' :: name ++ spaces ++ ':' :: (spaces' ++ typeText factType body) :=
      List.mem_append_right _ List.mem_cons_self
    rw [hsplit, patternBinding, if_pos hhead, if_pos hmem, List.takeWhile_append_of_pos hcolon,
      List.dropWhile_append_of_pos hcolon, List.takeWhile_cons_of_neg (by decide),
      List.dropWhile_cons_of_neg (by decide), List.append_nil, trimAscii_back hspaces hvariable,
      List.tail_cons, trimAscii_front hspaces' htight]

/-- The text of a pattern is compiled. -/
theorem IsPattern.parse {pattern : ParsedPattern} (h : IsPattern text pattern)
    (stod : List Char → Option Double) : parseConditionPattern stod text = some pattern := by
  obtain @⟨spaces, qualifier, bindingText, binding, factType, body, spaces', type, root, hspaces,
    hqualifier, hbinding, hfactType, hbody, hspaces'⟩ := h
  have hparen : ∀ c ∈ factType, decide (c ≠ '(') = true := by
    intro c hc
    refine decide_eq_true ?_
    rintro rfl
    exact absurd (hfactType.letters _ hc) (by decide)
  have htight : Tight (qualifier ++ (bindingText ++ typeText factType body)) :=
    hqualifier.tight (@IsBinding.tight factType body _ _ hbinding hfactType)
  have htake : (typeText factType body).takeWhile (· ≠ '(') = factType := by
    rw [typeText, List.takeWhile_append_of_pos hparen, List.takeWhile_cons_of_neg (by decide),
      List.append_nil]
  have hdrop : (typeText factType body).dropWhile (· ≠ '(') = '(' :: (body ++ [')']) := by
    rw [typeText, List.dropWhile_append_of_pos hparen, List.dropWhile_cons_of_neg (by decide)]
  have hopen : '(' ∈ typeText factType body ∧ factType ≠ [] :=
    ⟨List.mem_append_right _ List.mem_cons_self, hfactType.tight.ne_nil⟩
  have hclosed := closeFirst_parenthesised hbody.balanced []
  rw [parseConditionPattern, trimAscii_padded hspaces hspaces' htight,
    patternType_text hqualifier hbinding hfactType]
  simp only [patternBinding_text hbinding hfactType, htake, hdrop, hclosed, hfactType.tight.trim,
    Option.bind_eq_bind, Option.bind_some, List.tail_cons, hbody.root stod]
  have hnil : trimAscii [] = [] := rfl
  rw [guard, guard, if_pos hopen, if_pos hnil]
  rfl

/-- **Patterns are compiled to what their text says.** A qualifier in whatever case, a variable, a
type and an expression between parentheses give the pattern of that kind with that variable, that
type and the expression's tree. -/
theorem parseConditionPattern_text (stod : List Char → Option Double)
    {qualifier bindingText binding factType body spaces spaces' : List Char} {type : PatternType}
    {root : Option ConstraintNode} (hqualifier : IsQualifier qualifier type)
    (hbinding : IsBinding bindingText binding) (hfactType : IsField factType)
    (hbody : IsBody body root) (hspaces : Blank spaces) (hspaces' : Blank spaces') :
    parseConditionPattern stod
        (spaces ++ (qualifier ++ (bindingText ++ typeText factType body)) ++ spaces') =
      some { type := type, binding := String.ofList binding, factType := String.ofList factType,
             constraintRoot := root } := by
  have hpattern := IsPattern.mk hspaces hqualifier hbinding hfactType hbody hspaces'
  exact hpattern.parse stod

/-- The text of a pattern with a qualifier, a variable and an expression. -/
def wellOffPattern : List Char :=
  [' '] ++ ("exists".toList ++ ' ' :: [] ++ ('$' :: "c".toList ++ ([' '] ++ ':' :: [' ']) ++
    typeText "Customer".toList ([' '] ++ ConditionExpr.wellOff.text ++ [' ']))) ++ [' ']

theorem parseConditionPattern_wellOff :
    wellOffPattern = " exists $c : Customer( ".toList ++
        ("status == \"GOLD\" and active != false or vip == true".toList ++ " ) ".toList) ∧
      parseConditionPattern (fun _ ↦ none) wellOffPattern =
        some { type := .exists, binding := String.ofList ('$' :: "c".toList),
               factType := String.ofList "Customer".toList,
               constraintRoot := some ConditionExpr.wellOff.tree } := by
  have hqualifier : IsQualifier ("exists".toList ++ ' ' :: []) .exists :=
    .existential rfl blank_nil
  have hbinding : IsBinding ('$' :: "c".toList ++ ([' '] ++ ':' :: [' '])) ('$' :: "c".toList) :=
    .bound ⟨'c', [], rfl, rfl, rfl⟩ blank_space blank_space
  have hbody := IsBody.expr blank_space ConditionExpr.wellOff_wellFormed blank_space
  exact ⟨rfl, parseConditionPattern_text (fun _ ↦ none) hqualifier hbinding
    ⟨'C', "ustomer".toList, rfl, rfl, rfl⟩ hbody blank_space blank_space⟩

end Patterns

end DecisionTable

end RulesForge
