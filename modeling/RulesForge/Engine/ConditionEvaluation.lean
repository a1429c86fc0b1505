import RulesForge.Engine.ConditionText

/-!
# What the evaluator makes of conditions

A condition is one comparison, or one number, to the evaluator: a text is split at its first
comparison operator, and neither side of it has a value where another `&&` or `||` stands on it, or
half of a pair of parentheses (`evaluateSimpleRhsCondition_iff`).
-/

namespace RulesForge

/-! ### The first comparison operator -/

/-- A letter that no comparison operator and no string begins with. -/
def isPassed (c : Char) : Bool :=
  !isLogical c && !(c = '"' || c = '\'')

section Compare

variable {s : Scan} {before text rest : List Char} {op : CompareOp} {depth : ℤ}

theorem compareToken_of_isPassed {c : Char} (hc : isPassed c = true)
    (hrest : rest.head? ≠ some '=') : compareToken (c :: rest) = none := by
  unfold compareToken
  split
  · next heq => cases heq; exact Bool.noConfusion hc
  · next heq => cases heq; exact absurd rfl hrest
  · next heq => cases heq; exact Bool.noConfusion hc
  · next heq => cases heq; exact Bool.noConfusion hc
  · next heq => cases heq; exact Bool.noConfusion hc
  · next heq => cases heq; exact Bool.noConfusion hc
  · rfl

theorem findTopLevelCompare_cons_of_none {c : Char} (h : compareToken (c :: text) = none) :
    findTopLevelCompare s before (c :: text) =
      findTopLevelCompare (s.next c) (before ++ [c]) text := by
  rw [findTopLevelCompare, h]
  split <;> rfl

/-- Letters without a comparison operator are passed, in parentheses or not. -/
theorem findTopLevelCompare_passed (htext : ∀ c ∈ text, isPassed c = true)
    (hrest : rest.head? ≠ some '=') :
    findTopLevelCompare s before (text ++ rest) =
      findTopLevelCompare (s.run text) (before ++ text) rest := by
  induction text generalizing s before with
  | nil => simp
  | cons c text ih =>
    have hnext : (text ++ rest).head? ≠ some '=' := by
      cases text with
      | nil => exact hrest
      | cons d text =>
        rintro ⟨⟩
        exact Bool.noConfusion (htext '=' (by simp))
    rw [List.cons_append, findTopLevelCompare_cons_of_none
      (compareToken_of_isPassed (htext c List.mem_cons_self) hnext),
      ih fun d hd ↦ htext d (List.mem_cons_of_mem c hd)]
    simp

/-- So are parentheses that are opened. -/
theorem findTopLevelCompare_replicate (n : ℕ) :
    findTopLevelCompare (.atDepth depth) before (List.replicate n '(' ++ text) =
      findTopLevelCompare (.atDepth (depth + n)) (before ++ List.replicate n '(') text := by
  induction n generalizing depth before with
  | zero => simp
  | succ n ih =>
    have hopen : compareToken ('(' :: (List.replicate n '(' ++ text)) = none := rfl
    rw [List.replicate_succ, List.cons_append, findTopLevelCompare_cons_of_none hopen,
      Scan.next_open, ih, List.append_assoc, List.singleton_append]
    congr 2
    omega

/-- The letters of a string are passed. -/
theorem findTopLevelCompare_body {body : List Char} (hbody : ∀ c ∈ body, c ≠ '"' ∧ c ≠ '\\') :
    findTopLevelCompare { quote := some '"', depth := depth } before (body ++ '"' :: rest) =
      findTopLevelCompare (.atDepth depth) (before ++ (body ++ ['"'])) rest :=
  Level.scan_body findTopLevelCompare
    (fun hquote ↦ by rw [findTopLevelCompare, if_neg fun hout ↦ hquote hout.1]) hbody

/-- The operator between two texts is the first of a comparison, if none is passed before. -/
theorem findTopLevelCompare_symbol (op : {op : CompareOp // op.IsComparison}) :
    findTopLevelCompare (.atDepth depth) before (' ' :: (compareSymbol op ++ ' ' :: rest)) =
      some (before ++ [' '], op.1, ' ' :: rest) := by
  rw [findTopLevelCompare_cons_of_none rfl, Scan.next_plain rfl]
  obtain ⟨op, hop⟩ := op
  cases op <;> first | exact hop.elim | rfl

/-- What is found: the parts of the text. -/
theorem findTopLevelCompare_eq_some {lhs rhs : List Char}
    (h : findTopLevelCompare s before text = some (lhs, op, rhs)) :
    ∃ passed, text = passed ++ compareSymbol op ++ rhs ∧ lhs = before ++ passed := by
  have htoken : ∀ {text after : List Char}, compareToken text = some (op, after) →
      text = compareSymbol op ++ after := by
    intro text after htoken
    unfold compareToken at htoken
    split at htoken <;> cases htoken <;> rfl
  induction text generalizing s before with
  | nil => cases h
  | cons c text ih =>
    have hskip : findTopLevelCompare (s.next c) (before ++ [c]) text = some (lhs, op, rhs) →
        ∃ passed, c :: text = passed ++ compareSymbol op ++ rhs ∧ lhs = before ++ passed := by
      intro hskip
      obtain ⟨passed, rfl, rfl⟩ := ih hskip
      exact ⟨c :: passed, rfl, by simp⟩
    rw [findTopLevelCompare] at h
    split at h
    · split at h
      · next op' after heq =>
        cases h
        exact ⟨[], htoken heq, (List.append_nil _).symm⟩
      · exact hskip h
    · exact hskip h

end Compare

/-! ### Sides of a comparison -/

theorem isPassed_of_isMark_not {c : Char} (hmark : isMark c = false)
    (hlogical : isLogical c = false) : isPassed c = true := by
  simp only [isMark, Bool.or_eq_false_iff] at hmark
  rw [isPassed, hlogical, hmark.1.1.1, hmark.1.1.2]
  rfl

theorem isLogical_of_isDigit {c : Char} (h : c.isDigit = true) : isLogical c = false := by
  simp only [Char.isDigit, Bool.and_eq_true, decide_eq_true_eq, ge_iff_le,
    UInt32.le_iff_toNat_le] at h
  have hhigh : c.toNat ≤ 57 := h.2
  have hlow : 48 ≤ c.toNat := h.1
  have hne : ∀ d : Char, d.toNat < 48 ∨ 57 < d.toNat → c ≠ d := by
    rintro d hd rfl
    omega
  simp [isLogical, hne]

theorem ExprVariable.isPassed (v : ExprVariable) {c : Char} (hc : c ∈ v.text) :
    RulesForge.isPassed c = true := by
  rcases List.mem_cons.mp hc with rfl | hletter
  · rfl
  · have hlogical := List.all_eq_true.mp v.isLetter c hletter
    simp only [isVariableLetter, Bool.and_eq_true, Bool.not_eq_true'] at hlogical
    exact isPassed_of_isMark_not (v.plain c hc).1 hlogical.2

theorem IntLiteral.isPassed (l : IntLiteral) {c : Char} (hc : c ∈ l.text) :
    RulesForge.isPassed c = true := by
  refine isPassed_of_isMark_not (l.mem_text hc).1 ?_
  have hdigit : ∀ c ∈ l.digits, isLogical c = false := fun c hc ↦
    isLogical_of_isDigit (List.all_eq_true.mp l.isDigit c hc)
  cases h : l.negative with
  | true =>
    rw [l.text_of_negative h] at hc
    rcases List.mem_cons.mp hc with rfl | hc
    · rfl
    · exact hdigit c hc
  | false =>
    rw [l.text_of_not h] at hc
    exact hdigit c hc

/-- Around a text and between two there is nothing else. -/
theorem isPassed_parenthesised {text : List Char} (h : ∀ c ∈ text, isPassed c = true) :
    ∀ c ∈ '(' :: text ++ [')'], isPassed c = true := by
  intro c hc
  simp only [List.cons_append, List.mem_cons, List.mem_append, List.not_mem_nil, or_false] at hc
  rcases hc with rfl | hc | rfl
  · rfl
  · exact h c hc
  · rfl

theorem isPassed_operation {text text' : List Char} {sign : Char}
    (h : ∀ c ∈ text, isPassed c = true) (hsign : isPassed sign = true)
    (h' : ∀ c ∈ text', isPassed c = true) :
    ∀ c ∈ text ++ ' ' :: sign :: ' ' :: text', isPassed c = true := by
  intro c hc
  simp only [List.mem_append, List.mem_cons] at hc
  rcases hc with hc | rfl | rfl | rfl | hc
  · exact h c hc
  · rfl
  · exact hsign
  · rfl
  · exact h' c hc

mutual

theorem ArithFactor.isPassed : ∀ f : ArithFactor, ∀ c ∈ f.text, RulesForge.isPassed c = true
  | .literal l, _, hc => l.isPassed hc
  | .var v, _, hc => v.isPassed hc
  | .paren e, c, hc => isPassed_parenthesised e.isPassed c hc

theorem ArithProduct.isPassed : ∀ p : ArithProduct, ∀ c ∈ p.text, RulesForge.isPassed c = true
  | .single f, c, hc => f.isPassed c hc
  | .times f rest, c, hc => isPassed_operation f.isPassed rfl rest.isPassed c hc

/-- No comparison operator stands in the text of an expression. -/
theorem ArithExpr.isPassed : ∀ e : ArithExpr, ∀ c ∈ e.text, RulesForge.isPassed c = true
  | .single p, c, hc => p.isPassed c hc
  | .step p op rest, c, hc => by
    have hsign : RulesForge.isPassed op.sign = true := by cases op <;> rfl
    exact isPassed_operation p.isPassed hsign rest.isPassed c hc

end

namespace TextOperand

theorem level_tight : ∀ {t : TextOperand}, t.IsClean → Level t.text ∧ Tight t.text
  | .literal body, h => by
    have hlevel : Level ('"' :: body ++ '"' :: []) := .quoted h .nil
    exact ⟨hlevel, ⟨'"', body ++ ['"'], rfl, rfl⟩, '"' :: body, '"', rfl, rfl⟩
  | .var v, _ => ⟨.of_plain fun c hc ↦ (v.plain c hc).1,
      .of_forall (List.cons_ne_nil _ _) fun c hc ↦ (v.plain c hc).2.1⟩
  | .paren t, h => by
    have h : t.IsClean := h
    exact ⟨(level_tight h).1.parenthesised, ⟨'(', t.text ++ [')'], rfl, rfl⟩,
      '(' :: t.text, ')', rfl, rfl⟩

/-- The text of a side is passed: an operator in a string is none. -/
theorem findTopLevelCompare :
    ∀ {t : TextOperand}, t.IsClean → ∀ {before rest : List Char} {depth : ℤ},
      rest.head? ≠ some '=' →
      RulesForge.findTopLevelCompare (.atDepth depth) before (t.text ++ rest) =
        RulesForge.findTopLevelCompare (.atDepth depth) (before ++ t.text) rest
  | .literal body, h, before, rest, depth, _ => by
    have hskip : RulesForge.findTopLevelCompare (.atDepth depth) before
        ('"' :: (body ++ '"' :: rest)) = RulesForge.findTopLevelCompare
          { quote := some '"', depth := depth } (before ++ ['"']) (body ++ '"' :: rest) := rfl
    have hbody := @findTopLevelCompare_body (before ++ ['"']) rest depth body h
    simpa [text, hskip] using hbody
  | .var v, _, before, rest, depth, hrest => by
    have hpassed := @findTopLevelCompare_passed (.atDepth depth) before v.text rest
      (fun _ hc ↦ v.isPassed hc) hrest
    have hlevel : Level v.text := .of_plain fun c hc ↦ (v.plain c hc).1
    rwa [hlevel.run] at hpassed
  | .paren t, h, before, rest, depth, hrest => by
    have h : t.IsClean := h
    have hinner := @findTopLevelCompare t h (before ++ ['(']) (')' :: rest) (depth + 1) nofun
    have hclose := @findTopLevelCompare_passed (.atDepth (depth + 1)) (before ++ ['('] ++ t.text)
      [')'] rest (fun c hc ↦ by rw [List.mem_singleton.mp hc]; rfl) hrest
    rw [Scan.run_cons, Scan.next_close, Int.add_sub_cancel, Scan.run_nil] at hclose
    have hopen : RulesForge.findTopLevelCompare (.atDepth depth) before
        ('(' :: (t.text ++ ')' :: rest)) = RulesForge.findTopLevelCompare (.atDepth (depth + 1))
          (before ++ ['(']) (t.text ++ ')' :: rest) :=
      findTopLevelCompare_cons_of_none rfl
    have hrun := hopen.trans (hinner.trans hclose)
    simpa [text] using hrun

/-- The value of a side. -/
theorem evaluate {evaluator : TextEvaluator} {texts : ExprVariable → String}
    (hstandard : evaluator.IsStandard) : ∀ {t : TextOperand}, t.IsClean →
    (∀ v ∈ t.variables, evaluator.resolve v.text = some (.string (texts v))) →
      ∀ {fuel : ℕ} {expression : List Char}, trimAscii expression = t.text →
        t.text.length < fuel → evaluator.evaluateText fuel expression =
          some (.string (t.value texts))
  | _, _, _, 0, _, _, hfuel => absurd hfuel (Nat.not_lt_zero _)
  | .literal body, h, _, fuel + 1, expression, htrim, _ => by
    have hwraps : hasWrappingParentheses ('"' :: (body ++ ['"'])) = false := by
      refine Bool.eq_false_iff.mpr fun hwraps ↦ ?_
      have hopen : some '"' = some '(' := (ends_of_hasWrappingParentheses hwraps).1
      cases hopen
    have hpass : ∀ pass, splitAtTop (wantedOperator pass) {} [] ('"' :: (body ++ ['"'])) = none :=
      fun pass ↦ @Level.splitAtTop_quoted (wantedOperator pass) [] body [] 0 h
    have hsplit : findTopLevelArithmetic ('"' :: (body ++ ['"'])) = none := by
      rw [findTopLevelArithmetic, hpass 0, hpass 1]
      rfl
    have hatom : evaluator.atom ('"' :: (body ++ ['"'])) = some (.string (String.ofList body)) := by
      have hlast : ('"' :: (body ++ ['"'])).getLast? = some '"' := by
        rw [← List.cons_append, List.getLast?_concat]
      rw [TextEvaluator.atom, if_pos (.inl ⟨rfl, hlast⟩)]
      simp
    rw [evaluateText_of_atom htrim rfl hwraps hsplit]
    exact hatom
  | .var v, _, hvariables, fuel + 1, expression, htrim, _ => by
    rw [evaluateText_of_atom htrim rfl (not_wrapping_of_head rfl v.letters)
      (ArithFactor.var v).findTopLevelArithmetic]
    exact (hstandard.atom_var v).trans (hvariables v (List.mem_singleton_self v))
  | .paren t, h, hvariables, fuel + 1, expression, htrim, hfuel => by
    have h : t.IsClean := h
    have hwraps := Level.hasWrappingParentheses_pair (level_tight h).1
    rw [evaluateText_of_wrapping htrim hwraps]
    show evaluator.evaluateText fuel (t.text ++ [')']).dropLast = some (.string (t.value texts))
    rw [List.dropLast_concat]
    refine evaluate hstandard h hvariables (level_tight h).2.trim ?_
    simp only [text, List.length_cons, List.length_append] at hfuel
    omega

end TextOperand

/-! ### Conditions that are read -/

section Reading

variable {library : NumberLibrary} {resolve : List Char → Option ConstraintValue}
  {numbers : ExprVariable → ℤ} {texts : ExprVariable → String}

theorem rhsEvaluator_isStandard : (rhsEvaluator library resolve).IsStandard :=
  ⟨fun _ ↦ rfl, fun _ text hc ↦ lookup_constants_of_start rhsConstants_not_start hc text⟩

/-- The comparison is found whatever level text stands before it. -/
theorem Comparison.findTopLevelCompare {before after : List Char} {depth : ℤ} {c : Comparison}
    (hclean : ∀ lhs op rhs, c = .texts lhs op rhs → lhs.IsClean) :
    RulesForge.findTopLevelCompare (.atDepth depth) before (c.text ++ after) =
      some (before ++ c.lhsText ++ [' '], c.op.1, ' ' :: (c.rhsText ++ after)) := by
  have hsymbol := @findTopLevelCompare_symbol (before ++ c.lhsText) (c.rhsText ++ after) depth c.op
  have hlhs : RulesForge.findTopLevelCompare (.atDepth depth) before
      (c.lhsText ++ ' ' :: (compareSymbol c.op ++ ' ' :: (c.rhsText ++ after))) =
        RulesForge.findTopLevelCompare (.atDepth depth) (before ++ c.lhsText)
          (' ' :: (compareSymbol c.op ++ ' ' :: (c.rhsText ++ after))) := by
    cases c with
    | numbers lhs op rhs =>
      have hpassed := @findTopLevelCompare_passed (.atDepth depth) before lhs.text
        (' ' :: (compareSymbol op ++ ' ' :: (rhs.text ++ after))) lhs.isPassed nofun
      rwa [lhs.level_tight.1.run] at hpassed
    | texts lhs op rhs => exact TextOperand.findTopLevelCompare (hclean lhs op rhs rfl) nofun
  rw [Comparison.text, List.append_assoc, List.cons_append, List.append_assoc, List.cons_append,
    hlhs]
  exact hsymbol

/-- What is between an operator and the side after it is trimmed. -/
theorem trimAscii_sides {lhs rhs : List Char} (hlhs : Tight lhs) (hrhs : Tight rhs) :
    trimAscii (lhs ++ [' ']) = lhs ∧ trimAscii (' ' :: rhs) = rhs :=
  ⟨(trimAscii_concat_space lhs).trans hlhs.trim, (trimAscii_cons_space rhs).trans hrhs.trim⟩

/-- A comparison of numbers compares what its sides are when they are read from the right. -/
theorem evaluate_numbers {lhs rhs : ArithExpr} {op : {op : CompareOp // op.IsComparison}}
    (hlhs : ∀ v ∈ lhs.variables, resolve v.text = some (.int64 (numbers v)))
    (hrhs : ∀ v ∈ rhs.variables, resolve v.text = some (.int64 (numbers v))) :
    evaluateSimpleRhsCondition library resolve (Comparison.numbers lhs op rhs).text =
      (do
        let i ← lhs.regrouped library numbers
        let j ← rhs.regrouped library numbers
        some (compareScalarValues op (.int64 i) (.int64 j))) := by
  have hfind := @Comparison.findTopLevelCompare [] [] 0 (.numbers lhs op rhs) nofun
  simp only [List.append_nil, List.nil_append] at hfind
  change RulesForge.findTopLevelCompare {} [] (Comparison.numbers lhs op rhs).text =
    some (lhs.text ++ [' '], op.1, ' ' :: rhs.text) at hfind
  obtain ⟨htrim, htrim'⟩ := trimAscii_sides lhs.level_tight.2 rhs.level_tight.2
  have ha := @evaluateSimpleRhsValue_trim library numbers resolve lhs (lhs.text ++ [' ']) hlhs
    htrim (by simp)
  have hb := @evaluateSimpleRhsValue_trim library numbers resolve rhs (' ' :: rhs.text) hrhs
    htrim' (by simp)
  rw [evaluateSimpleRhsCondition, hfind]
  simp only [ha, hb]
  cases lhs.regrouped library numbers with
  | none => rfl
  | some i => cases rhs.regrouped library numbers <;> rfl

/-- A comparison of texts compares them. -/
theorem evaluate_texts {lhs rhs : TextOperand} {op : {op : CompareOp // op.IsComparison}}
    (hcleanLhs : lhs.IsClean) (hcleanRhs : rhs.IsClean)
    (hlhs : ∀ v ∈ lhs.variables, resolve v.text = some (.string (texts v)))
    (hrhs : ∀ v ∈ rhs.variables, resolve v.text = some (.string (texts v))) :
    evaluateSimpleRhsCondition library resolve (Comparison.texts lhs op rhs).text =
      some (evaluateOrderedCompare op (compare (lhs.value texts) (rhs.value texts))) := by
  have hfind := @Comparison.findTopLevelCompare [] [] 0 (.texts lhs op rhs)
    fun _ _ _ heq ↦ by cases heq; exact hcleanLhs
  simp only [List.append_nil, List.nil_append] at hfind
  change RulesForge.findTopLevelCompare {} [] (Comparison.texts lhs op rhs).text =
    some (lhs.text ++ [' '], op.1, ' ' :: rhs.text) at hfind
  obtain ⟨htrim, htrim'⟩ := trimAscii_sides (TextOperand.level_tight hcleanLhs).2
    (TextOperand.level_tight hcleanRhs).2
  have ha : evaluateSimpleRhsValue library resolve (lhs.text ++ [' ']) =
      some (.string (lhs.value texts)) :=
    TextOperand.evaluate rhsEvaluator_isStandard hcleanLhs hlhs htrim
      (Nat.lt_succ_of_le (by simp))
  have hb : evaluateSimpleRhsValue library resolve (' ' :: rhs.text) =
      some (.string (rhs.value texts)) :=
    TextOperand.evaluate rhsEvaluator_isStandard hcleanRhs hrhs htrim'
      (Nat.lt_succ_of_le (by simp))
  rw [evaluateSimpleRhsCondition, hfind]
  simp only [ha, hb]
  rfl

/-- A number holds unless it is zero. -/
theorem evaluate_number {e : ArithExpr}
    (h : ∀ v ∈ e.variables, resolve v.text = some (.int64 (numbers v))) :
    evaluateSimpleRhsCondition library resolve e.text =
      (e.regrouped library numbers).map fun i ↦ decide (i ≠ 0) := by
  have hfind := @findTopLevelCompare_passed {} [] e.text [] e.isPassed nofun
  rw [List.append_nil] at hfind
  have hnone : RulesForge.findTopLevelCompare {} [] e.text = none := hfind
  rw [evaluateSimpleRhsCondition, hnone, evaluateSimpleRhsValue_text h, Option.map_map]
  rfl

/-- What is read as a comparison or a number has the value it has if the reading agrees. -/
theorem evaluate_reading {r : Comparison ⊕ ArithExpr}
    (hcomparison : ∀ c, r = .inl c →
      (∀ v ∈ c.numberVariables, resolve v.text = some (.int64 (numbers v))) ∧
        ∀ v ∈ c.textVariables, resolve v.text = some (.string (texts v)))
    (hnumber : ∀ e, r = .inr e → ∀ v ∈ e.variables, resolve v.text = some (.int64 (numbers v)))
    (hclean : ∀ lhs op rhs, r = .inl (.texts lhs op rhs) → lhs.IsClean ∧ rhs.IsClean) :
    evaluateSimpleRhsCondition library resolve (readingText r) =
        some (readingHolds numbers texts r) ↔
      readingAgrees library numbers r := by
  rcases r with c | e
  · obtain ⟨hnumbers, htexts⟩ := hcomparison c rfl
    cases c with
    | numbers lhs op rhs =>
      have hvalue := @evaluate_numbers library resolve numbers lhs rhs op
        (fun v hv ↦ hnumbers v (List.mem_append_left _ hv))
        (fun v hv ↦ hnumbers v (List.mem_append_right _ hv))
      show evaluateSimpleRhsCondition library resolve (Comparison.numbers lhs op rhs).text = _ ↔ _
      rw [hvalue]
      exact Iff.rfl
    | texts lhs op rhs =>
      obtain ⟨hcleanLhs, hcleanRhs⟩ := hclean lhs op rhs rfl
      have hvalue := @evaluate_texts library resolve texts lhs rhs op hcleanLhs hcleanRhs
        (fun v hv ↦ htexts v (List.mem_append_left _ hv))
        (fun v hv ↦ htexts v (List.mem_append_right _ hv))
      exact ⟨fun _ ↦ ⟨hcleanLhs, hcleanRhs⟩, fun _ ↦ hvalue⟩
  · show evaluateSimpleRhsCondition library resolve e.text = _ ↔ _
    rw [evaluate_number (hnumber e rfl)]
    exact Iff.rfl

end Reading

/-! ### Texts without a value -/

/-- A letter of `&&` and `||`. -/
def isJunction (c : Char) : Bool := c = '&' || c = '|'

/-- A text with such a letter, and without a string. -/
structure IsJoined (text : List Char) : Prop where
  junction : ∃ c ∈ text, isJunction c = true
  unquoted : ∀ c ∈ text, c ≠ '"' ∧ c ≠ '\''

/-- What `strtod` and the variables have no value for: a text with a letter of `&&` or `||`, and,
for `strtod`, one that begins with a parenthesis. -/
structure Rejects (library : NumberLibrary) (resolve : List Char → Option ConstraintValue) :
    Prop where
  strtod : ∀ text, (∃ c ∈ text, isJunction c = true) ∨ text.head? = some '(' →
    library.strtod text = none
  resolve : ∀ text, (∃ c ∈ text, isJunction c = true) → resolve text = none

section Parts

variable {s : Scan} {c : Char} {arg text : List Char}

theorem isJunction_cases (hc : isJunction c = true) : c = '&' ∨ c = '|' := by
  simpa [isJunction] using hc

theorem mem_of_mem_trimAscii (h : c ∈ trimAscii text) : c ∈ text := by
  rw [trimAscii, List.rdropWhile, List.mem_reverse] at h
  have hreverse := (List.dropWhile_suffix isSpace).subset h
  exact (List.dropWhile_suffix isSpace).subset (List.mem_reverse.mp hreverse)

theorem mem_dropWhile {p : Char → Bool} (hc : p c = false) (h : c ∈ text) :
    c ∈ text.dropWhile p := by
  rw [← @List.takeWhile_append_dropWhile _ p text, List.mem_append] at h
  rcases h with h | h
  · exact Bool.noConfusion (hc.symm.trans (List.mem_takeWhile_imp h))
  · exact h

/-- A letter that is no space stays. -/
theorem mem_trimAscii (hc : isSpace c = false) (h : c ∈ text) : c ∈ trimAscii text := by
  rw [trimAscii, List.rdropWhile, List.mem_reverse]
  exact mem_dropWhile hc (List.mem_reverse.mpr (mem_dropWhile hc h))

/-- Every letter of the arguments but the commas is one of an argument. -/
theorem exists_mem_splitArguments (hspace : isSpace c = false) (hcomma : c ≠ ',')
    (h : c ∈ arg ∨ c ∈ text) : ∃ a ∈ splitArguments s arg text, c ∈ a := by
  induction text generalizing s arg with
  | nil =>
    have harg : c ∈ arg := h.resolve_right (List.not_mem_nil)
    exact ⟨trimAscii arg, List.mem_singleton_self _, mem_trimAscii hspace harg⟩
  | cons d text ih =>
    rw [splitArguments]
    split
    · next hsplit =>
      have hd : d = ',' := of_decide_eq_true (Bool.and_eq_true _ _ ▸ hsplit).2
      rcases h with h | h
      · exact ⟨trimAscii arg, List.mem_cons_self, mem_trimAscii hspace h⟩
      · obtain ⟨a, ha, hca⟩ := @ih (s.next d) [] (.inr ((List.mem_cons.mp h).resolve_left
          fun heq ↦ hcomma (heq.trans hd)))
        exact ⟨a, List.mem_cons_of_mem _ ha, hca⟩
    · refine ih ?_
      rw [List.mem_append, List.mem_singleton, or_assoc]
      rwa [List.mem_cons] at h

theorem mem_of_mem_splitArguments {a : List Char} (ha : a ∈ splitArguments s arg text)
    (h : c ∈ a) : c ∈ arg ∨ c ∈ text := by
  induction text generalizing s arg with
  | nil =>
    rw [splitArguments, List.mem_singleton] at ha
    rw [ha] at h
    exact .inl (mem_of_mem_trimAscii h)
  | cons d text ih =>
    rw [splitArguments] at ha
    split at ha
    · rcases List.mem_cons.mp ha with rfl | ha
      · exact .inl (mem_of_mem_trimAscii h)
      · exact .inr (List.mem_cons_of_mem d ((ih ha).resolve_left List.not_mem_nil))
    · have hparts := ih ha
      rw [List.mem_append, List.mem_singleton, or_assoc] at hparts
      rwa [List.mem_cons]

/-- What the arguments of a function are made of. -/
theorem parseFunctionCall_eq_some {name : String} {args : List (List Char)}
    (h : parseFunctionCall text = some (name, args)) :
    ∃ inner, text.dropWhile isNameLetter = '(' :: inner ++ [')'] ∧
      args = splitArguments {} [] inner := by
  unfold parseFunctionCall at h
  split at h
  · cases h
  · next c tail =>
    split at h
    · dsimp only at h
      split at h
      · next hwraps =>
        obtain ⟨inner, hinner⟩ := exists_inner_of_hasWrappingParentheses hwraps
        cases h
        refine ⟨inner, hinner, ?_⟩
        rw [hinner]
        simp
      · cases h
    · cases h

theorem mapM_eq_none_of_mem {α β : Type} {f : α → Option β} {l : List α} {a : α} (ha : a ∈ l)
    (h : f a = none) : l.mapM f = none := by
  induction l with
  | nil => cases ha
  | cons b l ih =>
    rw [List.mapM_cons]
    rcases List.mem_cons.mp ha with rfl | ha
    · rw [h]
      rfl
    · rw [ih ha]
      cases f b <;> rfl

end Parts

section Joined

variable {library : NumberLibrary} {resolve : List Char → Option ConstraintValue}
  {fuel : ℕ} {text expression : List Char}

/-- A text that is no integer, no constant and no string has no value if it is rejected. -/
theorem atom_eq_none {c : Char} (h : Rejects library resolve) (hc : c = '(' ∨ isJunction c = true)
    (hmem : c ∈ text) (hhead : c = '(' → text.head? = some '(')
    (hunquoted : text.head? ≠ some '"' ∧ text.head? ≠ some '\'') :
    (rhsEvaluator library resolve).atom text = none := by
  have hdigit : c.isDigit = false ∧ c ≠ '-' := by
    rcases hc with rfl | hc
    · decide
    · rcases isJunction_cases hc with rfl | rfl <;> decide
  have hinteger : ∀ {negative : Bool} {digits : List Char}, c ∈ digits →
      integerOf negative digits = none := fun hmem ↦
    if_neg fun hall ↦ Bool.noConfusion
      (hdigit.1.symm.trans (List.all_eq_true.mp hall.2.1 c hmem))
  have hfrom : fromChars text = none := by
    unfold fromChars
    split
    · exact hinteger ((List.mem_cons.mp hmem).resolve_left hdigit.2)
    · exact hinteger hmem
  have hconstants :
      (rhsEvaluator library resolve).constants.lookup (String.ofList text) = none := by
    show rhsConstants.lookup (String.ofList text) = none
    refine List.lookup_eq_none_iff.mpr fun p hp ↦ ?_
    have hname : p.1.toList.all (fun d ↦ d ≠ '(' && !isJunction d) = true := by
      simp only [rhsConstants, List.mem_cons, List.not_mem_nil, or_false] at hp
      rcases hp with rfl | rfl | rfl | rfl <;> rfl
    have hne : String.ofList text ≠ p.1 := by
      intro heq
      rw [← heq, String.toList_ofList] at hname
      have hletter := List.all_eq_true.mp hname c hmem
      rcases hc with rfl | hc
      · cases hletter
      · rcases isJunction_cases hc with rfl | rfl <;> cases hletter
    simpa using hne
  rw [TextEvaluator.atom, if_neg ?_, hconstants]
  · show (if text.head? = some '$' then resolve text else _) = none
    split
    · next hdollar =>
      rcases hc with hc | hc
      · rw [hhead hc] at hdollar
        cases hdollar
      · exact h.resolve text ⟨c, hmem, hc⟩
    · rw [hfrom]
      show (library.strtod text).map _ = none
      have hnone : library.strtod text = none := by
        rcases hc with hc | hc
        · exact h.strtod text (.inr (hhead hc))
        · exact h.strtod text (.inl ⟨c, hmem, hc⟩)
      rw [hnone]
      rfl
  · rintro (⟨hquote, -⟩ | ⟨hquote, -⟩)
    · exact hunquoted.1 hquote
    · exact hunquoted.2 hquote

/-- **A text with a letter of `&&` or `||` has no value**: an operator, a parenthesis or a comma
that it is split at leaves the letter in one of the parts. -/
theorem evaluateText_of_isJoined (h : Rejects library resolve) (hexpression : IsJoined expression) :
    (rhsEvaluator library resolve).evaluateText fuel expression = none := by
  induction fuel generalizing expression with
  | zero => rfl
  | succ fuel ih =>
    obtain ⟨⟨c, hmem, hc⟩, hunquoted⟩ := hexpression
    have hplain : isSpace c = false ∧ c ≠ ',' ∧ c ≠ '(' ∧ c ≠ ')' ∧ isNameLetter c = false ∧
        isOperator 0 c = false ∧ isOperator 1 c = false := by
      rcases isJunction_cases hc with rfl | rfl <;> decide
    obtain ⟨hspace, hcomma, hopen, hclose, hname, hzero, hone⟩ := hplain
    have hmem := mem_trimAscii hspace hmem
    have hunquoted : ∀ d ∈ trimAscii expression, d ≠ '"' ∧ d ≠ '\'' :=
      fun d hd ↦ hunquoted d (mem_of_mem_trimAscii hd)
    rw [TextEvaluator.evaluateText]
    generalize trimAscii expression = text at hmem hunquoted
    split
    · rfl
    split
    · -- what is left of a text within parentheses has the letter
      next hwraps =>
      obtain ⟨inner, rfl⟩ := exists_inner_of_hasWrappingParentheses hwraps
      have hinner : (('(' :: inner ++ [')']).drop 1).dropLast = inner := by simp
      rw [hinner]
      simp only [List.cons_append, List.mem_cons, List.mem_append, List.not_mem_nil, or_false]
        at hmem hunquoted
      exact ih ⟨⟨c, (hmem.resolve_left hopen).resolve_right hclose, hc⟩,
        fun d hd ↦ hunquoted d (.inr (.inl hd))⟩
    split
    · next hpi =>
      rw [hpi] at hmem
      rcases isJunction_cases hc with rfl | rfl <;> exact absurd hmem (by decide)
    split
    · -- an argument of the function has it
      next name args hcall =>
      obtain ⟨inner, hwrapped, rfl⟩ := parseFunctionCall_eq_some hcall
      have hparts : ∀ {d : Char}, d ∈ inner → d ∈ text := by
        intro d hd
        refine (List.dropWhile_suffix isNameLetter).subset ?_
        rw [hwrapped]
        simp [hd]
      have hwrappedMem := mem_dropWhile hname hmem
      rw [hwrapped] at hwrappedMem
      simp only [List.cons_append, List.mem_cons, List.mem_append, List.not_mem_nil, or_false]
        at hwrappedMem
      obtain ⟨arg, harg, hcarg⟩ := @exists_mem_splitArguments {} c [] inner hspace hcomma
        (.inr ((hwrappedMem.resolve_left hopen).resolve_right hclose))
      have hnone := @ih arg ⟨⟨c, hcarg, hc⟩, fun d hd ↦
        hunquoted d (hparts ((mem_of_mem_splitArguments harg hd).resolve_left List.not_mem_nil))⟩
      rw [mapM_eq_none_of_mem harg]
      · rfl
      · rw [hnone]
        rfl
    · split
      · -- a side of the operator has it
        next lhs sign rhs hsplit =>
        obtain ⟨rfl, hop, -⟩ := findTopLevelArithmetic_eq_some hsplit
        have hsign : c ≠ sign := by
          rintro rfl
          rcases hop with hop | hop
          · exact Bool.noConfusion (hzero.symm.trans hop)
          · exact Bool.noConfusion (hone.symm.trans hop)
        simp only [List.mem_append, List.mem_cons] at hmem hunquoted
        rcases hmem with hmem | hmem | hmem
        · rw [@ih lhs ⟨⟨c, hmem, hc⟩, fun d hd ↦ hunquoted d (.inl hd)⟩]
        · exact absurd hmem hsign
        · rw [@ih rhs ⟨⟨c, hmem, hc⟩, fun d hd ↦ hunquoted d (.inr (.inr hd))⟩]
          cases (rhsEvaluator library resolve).evaluateText fuel lhs <;> rfl
      · refine atom_eq_none h (.inr hc) hmem (fun heq ↦ absurd heq hopen) ⟨?_, ?_⟩
        · exact fun hhead ↦ (hunquoted _ (List.mem_of_mem_head? hhead)).1 rfl
        · exact fun hhead ↦ (hunquoted _ (List.mem_of_mem_head? hhead)).2 rfl

/-- A text with parentheses that are not closed has no value. -/
theorem evaluateText_of_unclosed (h : Rejects library resolve) (hlevel : Level text)
    (htight : Tight text) (n : ℕ) :
    (rhsEvaluator library resolve).evaluateText fuel
      (List.replicate (n + 1) '(' ++ text ++ [' ']) = none := by
  cases fuel with
  | zero => rfl
  | succ fuel =>
    have htight' : Tight (List.replicate (n + 1) '(' ++ text) := by
      refine ⟨⟨'(', List.replicate n '(' ++ text, rfl, rfl⟩, ?_⟩
      obtain ⟨init, c, hinit, hc⟩ := htight.last
      exact ⟨List.replicate (n + 1) '(' ++ init, c, by rw [hinit, List.append_assoc], hc⟩
    have htrim : trimAscii (List.replicate (n + 1) '(' ++ text ++ [' ']) =
        '(' :: (List.replicate n '(' ++ text) :=
      (trimAscii_concat_space _).trans htight'.trim
    have hsplit : findTopLevelArithmetic ('(' :: (List.replicate n '(' ++ text)) = none := by
      have hpass : ∀ pass, splitAtTop (wantedOperator pass) {} []
          ('(' :: (List.replicate n '(' ++ text)) = none :=
        fun pass ↦ Level.splitAtTop_of_unclosed hlevel n
      rw [findTopLevelArithmetic, hpass 0, hpass 1]
      rfl
    rw [evaluateText_of_atom htrim rfl (Level.not_wrapping_of_unclosed hlevel n) hsplit]
    exact atom_eq_none h (.inl rfl) List.mem_cons_self (fun _ ↦ rfl) ⟨nofun, nofun⟩

end Joined

/-! ### Conditions that are not read -/

/-- A condition has a letter of `&&` or `||` in its text, or is a comparison or a number, perhaps in
parentheses. -/
inductive Form (text : List Char) (comparisons : List Comparison)
    (reading : Option (Comparison ⊕ ArithExpr)) : Prop where
  | joined : (∃ c ∈ text, isJunction c = true) → Form text comparisons reading
  | comparison (c : Comparison) (n : ℕ) : c ∈ comparisons →
      text = List.replicate n '(' ++ c.text ++ List.replicate n ')' →
        (n = 0 → reading = some (.inl c)) → Form text comparisons reading
  | number (e : ArithExpr) : reading = some (.inr e) → Form text comparisons reading

mutual

theorem CondTerm.form : ∀ t : CondTerm, Form t.text t.comparisons t.reading
  | .comparison c => .comparison c 0 (List.mem_singleton_self c) (List.append_nil _).symm
      fun _ ↦ rfl
  | .number e => .number e rfl
  | .paren c => by
    show Form ('(' :: c.text ++ [')']) c.comparisons (CondTerm.paren c).reading
    cases c.form with
    | joined h =>
      obtain ⟨d, hd, hjunction⟩ := h
      exact .joined ⟨d, by simp [hd], hjunction⟩
    | comparison c' n hc' htext hreading =>
      refine .comparison c' (n + 1) hc' ?_ nofun
      rw [htext, List.replicate_succ, List.replicate_succ']
      simp
    | number e he =>
      refine .number (.single (.single (.paren e))) ?_
      rw [CondTerm.reading, he]

theorem CondAnd.form : ∀ c : CondAnd, Form c.text c.comparisons c.reading
  | .single t => t.form
  | .and _ _ => .joined ⟨'&', by simp [CondAnd.text], rfl⟩

theorem CondOr.form : ∀ c : CondOr, Form c.text c.comparisons c.reading
  | .single c => c.form
  | .or _ _ => .joined ⟨'|', by simp [CondOr.text], rfl⟩

end

/-- A letter that is no quote. -/
def isUnquoted (c : Char) : Bool := !(c = '"' || c = '\'')

theorem isUnquoted_of_isPassed {c : Char} (h : isPassed c = true) : isUnquoted c = true := by
  rw [isPassed, Bool.and_eq_true] at h
  exact h.2

theorem TextOperand.isUnquoted : ∀ {t : TextOperand}, t.IsUnquoted →
    t.IsClean ∧ t.text.all RulesForge.isUnquoted = true
  | .var v, _ => ⟨trivial, List.all_eq_true.mpr fun _ hc ↦ isUnquoted_of_isPassed (v.isPassed hc)⟩
  | .paren t, h => by
    have h : t.IsUnquoted := h
    obtain ⟨hclean, htext⟩ := isUnquoted h
    refine ⟨hclean, ?_⟩
    simp only [text, List.cons_append, List.all_cons, List.all_append, htext]
    rfl

theorem Comparison.isUnquoted : ∀ {c : Comparison}, c.IsUnquoted →
    c.text.all RulesForge.isUnquoted = true
  | c, h => by
    have hsymbol : (compareSymbol c.op).all RulesForge.isUnquoted = true := by
      obtain ⟨op, hop⟩ := c.op
      cases op <;> first | exact hop.elim | rfl
    have hsides : c.lhsText.all RulesForge.isUnquoted = true ∧
        c.rhsText.all RulesForge.isUnquoted = true := by
      cases c with
      | numbers lhs op rhs =>
        exact ⟨List.all_eq_true.mpr fun c hc ↦ isUnquoted_of_isPassed (lhs.isPassed c hc),
          List.all_eq_true.mpr fun c hc ↦ isUnquoted_of_isPassed (rhs.isPassed c hc)⟩
      | texts lhs op rhs =>
        exact ⟨(TextOperand.isUnquoted h.1).2, (TextOperand.isUnquoted h.2).2⟩
    simp only [text, List.all_append, List.all_cons, hsides.1, hsides.2, hsymbol]
    rfl

mutual

theorem CondTerm.isUnquoted : ∀ {t : CondTerm}, (∀ c ∈ t.comparisons, c.IsUnquoted) →
    t.text.all RulesForge.isUnquoted = true
  | .comparison c, h => Comparison.isUnquoted (h c (List.mem_singleton_self c))
  | .number e, _ => List.all_eq_true.mpr fun c hc ↦ isUnquoted_of_isPassed (e.isPassed c hc)
  | .paren c, h => by
    have hinner := @CondOr.isUnquoted c h
    simp only [CondTerm.text, List.cons_append, List.all_cons, List.all_append, hinner]
    rfl

theorem CondAnd.isUnquoted : ∀ {c : CondAnd}, (∀ cmp ∈ c.comparisons, cmp.IsUnquoted) →
    c.text.all RulesForge.isUnquoted = true
  | .single _, h => CondTerm.isUnquoted h
  | .and t rest, h => by
    have hfirst := @CondTerm.isUnquoted t fun c hc ↦ h c (List.mem_append_left _ hc)
    have hrest := @CondAnd.isUnquoted rest fun c hc ↦ h c (List.mem_append_right _ hc)
    simp only [CondAnd.text, List.all_append, List.all_cons, hfirst, hrest]
    rfl

/-- Without strings in its comparisons there is no quote in the text of a condition. -/
theorem CondOr.isUnquoted : ∀ {c : CondOr}, (∀ cmp ∈ c.comparisons, cmp.IsUnquoted) →
    c.text.all RulesForge.isUnquoted = true
  | .single _, h => CondAnd.isUnquoted h
  | .or c rest, h => by
    have hfirst := @CondAnd.isUnquoted c fun c hc ↦ h c (List.mem_append_left _ hc)
    have hrest := @CondOr.isUnquoted rest fun c hc ↦ h c (List.mem_append_right _ hc)
    simp only [CondOr.text, List.all_append, List.all_cons, hfirst, hrest]
    rfl

end

section Conditions

variable {library : NumberLibrary} {resolve : List Char → Option ConstraintValue}
  {numbers : ExprVariable → ℤ} {text : List Char}

/-- A condition with `&&` or `||` has no value: these are on a side of its first comparison. -/
theorem evaluate_joined (h : Rejects library resolve) (htext : IsJoined text) :
    evaluateSimpleRhsCondition library resolve text = none := by
  have hvalue : ∀ {text : List Char}, IsJoined text →
      evaluateSimpleRhsValue library resolve text = none := fun htext ↦
    evaluateText_of_isJoined h htext
  rw [evaluateSimpleRhsCondition]
  cases hfind : findTopLevelCompare {} [] text with
  | none =>
    show (evaluateSimpleRhsValue library resolve text).map isTruthy = none
    rw [hvalue htext]
    rfl
  | some parts =>
    obtain ⟨lhs, op, rhs⟩ := parts
    obtain ⟨passed, rfl, hlhs⟩ := findTopLevelCompare_eq_some hfind
    obtain rfl : lhs = passed := hlhs
    obtain ⟨⟨c, hmem, hc⟩, hunquoted⟩ := htext
    have hsymbol : c ∉ compareSymbol op := by
      rcases isJunction_cases hc with rfl | rfl <;> cases op <;> decide
    show ((evaluateSimpleRhsValue library resolve lhs).bind fun a ↦
      (evaluateSimpleRhsValue library resolve rhs).bind fun b ↦
        some (compareScalarValues op a b)) = none
    simp only [List.mem_append] at hmem hunquoted
    rcases hmem with (hmem | hmem) | hmem
    · rw [hvalue ⟨⟨c, hmem, hc⟩, fun d hd ↦ hunquoted d (.inl (.inl hd))⟩]
      rfl
    · exact absurd hmem hsymbol
    · rw [hvalue ⟨⟨c, hmem, hc⟩, fun d hd ↦ hunquoted d (.inr hd)⟩]
      cases evaluateSimpleRhsValue library resolve lhs <;> rfl

/-- A comparison in parentheses has no value: its left side has parentheses that are not closed. -/
theorem evaluate_parenthesised (h : Rejects library resolve) {c : Comparison}
    (hclean : ∀ lhs op rhs, c = .texts lhs op rhs → lhs.IsClean) (n : ℕ) (after : List Char) :
    evaluateSimpleRhsCondition library resolve
      (List.replicate (n + 1) '(' ++ c.text ++ after) = none := by
  have hpassed : findTopLevelCompare {} [] (List.replicate (n + 1) '(' ++ (c.text ++ after)) =
      some (List.replicate (n + 1) '(' ++ c.lhsText ++ [' '], c.op.1,
        ' ' :: (c.rhsText ++ after)) :=
    (@findTopLevelCompare_replicate [] (c.text ++ after) 0 (n + 1)).trans
      (Comparison.findTopLevelCompare hclean)
  have hlevel : Level c.lhsText ∧ Tight c.lhsText := by
    cases c with
    | numbers lhs op rhs => exact lhs.level_tight
    | texts lhs op rhs => exact TextOperand.level_tight (hclean lhs op rhs rfl)
  have hlhs : evaluateSimpleRhsValue library resolve
      (List.replicate (n + 1) '(' ++ c.lhsText ++ [' ']) = none :=
    evaluateText_of_unclosed h hlevel.1 hlevel.2 n
  rw [evaluateSimpleRhsCondition, List.append_assoc, hpassed]
  show ((evaluateSimpleRhsValue library resolve _).bind _) = none
  rw [hlhs]
  rfl

/-- Small sides with nothing after a subtraction compare as their values do. -/
theorem readingAgrees_of_aligned {lhs rhs : ArithExpr} {op : {op : CompareOp // op.IsComparison}}
    (hlhs : lhs.Aligned numbers) (hlhsRange : lhs.InRange numbers)
    (hrhs : rhs.Aligned numbers) (hrhsRange : rhs.InRange numbers) :
    readingAgrees library numbers (.inl (.numbers lhs op rhs)) := by
  have hsmall : IsSmall (lhs.value numbers) := lhs.isSmall_valueFrom 0 .add hlhsRange
  have hsmall' : IsSmall (rhs.value numbers) := rhs.isSmall_valueFrom 0 .add hrhsRange
  have hcompare := @compareScalarValues_of_integers (.int64 (lhs.value numbers))
    (.int64 (rhs.value numbers)) _ _ op op.2 rfl rfl
  rw [Double.roundToInt_of_natAbs_le hsmall, Double.roundToInt_of_natAbs_le hsmall'] at hcompare
  rw [readingAgrees, hlhs.regrouped hlhsRange hsmall, hrhs.regrouped hrhsRange hsmall']
  exact congrArg some hcompare

end Conditions

/-! ### The value of a condition -/

/-- **The evaluator reads one comparison**: a condition that is one comparison in no parentheses, or
one number, and that agrees with how its sides are read, has its value; which it does where the
sides are small and nothing follows a subtraction. No other condition without strings has its value:
one with `&&` or `||`, or with parentheses around a comparison, has none. -/
theorem evaluateSimpleRhsCondition_iff (library : NumberLibrary)
    (resolve : List Char → Option ConstraintValue) (numbers : ExprVariable → ℤ)
    (texts : ExprVariable → String) (c : CondOr) (hrejects : Rejects library resolve)
    (hnumbers : ∀ cmp ∈ c.comparisons, ∀ v ∈ cmp.numberVariables,
      resolve v.text = some (.int64 (numbers v)))
    (hterms : ∀ e ∈ c.numberTerms, ∀ v ∈ e.variables,
      resolve v.text = some (.int64 (numbers v)))
    (htexts : ∀ cmp ∈ c.comparisons, ∀ v ∈ cmp.textVariables,
      resolve v.text = some (.string (texts v))) :
    (c.Agrees library numbers →
      evaluateSimpleRhsCondition library resolve c.text = some (c.holds numbers texts)) ∧
    ((∀ cmp ∈ c.comparisons, cmp.IsUnquoted) →
      (evaluateSimpleRhsCondition library resolve c.text = some (c.holds numbers texts) ↔
        c.Agrees library numbers)) ∧
    ∀ lhs op rhs, c.reading = some (.inl (.numbers lhs op rhs)) →
      lhs.Aligned numbers → lhs.InRange numbers → rhs.Aligned numbers → rhs.InRange numbers →
        c.Agrees library numbers := by
  have hreading : ∀ r, c.reading = some r →
      (∀ lhs op rhs, r = .inl (.texts lhs op rhs) → lhs.IsClean ∧ rhs.IsClean) →
      (evaluateSimpleRhsCondition library resolve c.text = some (c.holds numbers texts) ↔
        readingAgrees library numbers r) := by
    intro r hr hclean
    obtain ⟨htext, hholds, hcomparison, hnumber⟩ := c.isReading numbers texts hr
    rw [← htext, ← hholds]
    refine evaluate_reading (fun cmp hcmp ↦ ?_) (fun e he v hv ↦ ?_) hclean
    · exact ⟨hnumbers cmp (hcomparison cmp hcmp), htexts cmp (hcomparison cmp hcmp)⟩
    · obtain ⟨e', he', hv'⟩ := hnumber e he v hv
      exact hterms e' he' v hv'
  have hagrees : c.Agrees library numbers →
      evaluateSimpleRhsCondition library resolve c.text = some (c.holds numbers texts) := by
    rintro ⟨r, hr, hagrees⟩
    refine (hreading r hr fun lhs op rhs heq ↦ ?_).mpr hagrees
    rw [heq] at hagrees
    exact hagrees
  refine ⟨hagrees, fun hunquoted ↦ ⟨fun hvalue ↦ ?_, hagrees⟩, ?_⟩
  · have hclean : ∀ cmp ∈ c.comparisons, ∀ lhs op rhs, cmp = .texts lhs op rhs →
        lhs.IsClean ∧ rhs.IsClean := by
      rintro cmp hcmp lhs op rhs rfl
      obtain ⟨hlhs, hrhs⟩ := hunquoted _ hcmp
      exact ⟨(TextOperand.isUnquoted hlhs).1, (TextOperand.isUnquoted hrhs).1⟩
    -- a condition that is not read has no value
    have hread : ∀ {r}, c.reading = some r → c.Agrees library numbers := by
      intro r hr
      refine ⟨r, hr, (hreading r hr fun lhs op rhs heq ↦ ?_).mp hvalue⟩
      obtain ⟨-, -, hcomparison, -⟩ := c.isReading numbers texts hr
      exact hclean _ (hcomparison _ heq) lhs op rhs rfl
    cases c.form with
    | joined h =>
      have hplain : ∀ d ∈ c.text, d ≠ '"' ∧ d ≠ '\'' := by
        intro d hd
        have hd := List.all_eq_true.mp (CondOr.isUnquoted hunquoted) d hd
        simpa [isUnquoted] using hd
      rw [evaluate_joined hrejects ⟨h, hplain⟩] at hvalue
      cases hvalue
    | comparison cmp n hcmp htext hreading =>
      cases n with
      | zero => exact hread (hreading rfl)
      | succ n =>
        have hnone := @evaluate_parenthesised library resolve hrejects cmp
          (fun lhs op rhs heq ↦ (hclean cmp hcmp lhs op rhs heq).1) n
          (List.replicate (n + 1) ')')
        rw [htext, hnone] at hvalue
        cases hvalue
    | number e he => exact hread he
  · intro lhs op rhs hr hlhs hlhsRange hrhs hrhsRange
    exact ⟨_, hr, readingAgrees_of_aligned hlhs hlhsRange hrhs hrhsRange⟩

/-- `$x * 3 > 10`. -/
def oneComparison : CondOr :=
  .single (.single (.comparison (.numbers
    (.single (.times (.var amount) (.single (.literal three)))) ⟨.gt, trivial⟩
    (.single (.single (.literal ten))))))

/-- The variable `$x`, with the value `5`. -/
def onlyAmount (text : List Char) : Option ConstraintValue :=
  if text = amount.text then some (.int64 5) else none

theorem onlyAmount_rejects : Rejects bareLibrary onlyAmount where
  strtod _ _ := rfl
  resolve := by
    rintro text ⟨c, hmem, hc⟩
    refine if_neg ?_
    rintro rfl
    rcases isJunction_cases hc with rfl | rfl <;> exact absurd hmem (by decide)

theorem evaluate_oneComparison :
    evaluateSimpleRhsCondition bareLibrary onlyAmount oneComparison.text = some true := by
  have hvalue := evaluateSimpleRhsCondition_iff bareLibrary onlyAmount (fun _ ↦ 5) (fun _ ↦ "")
    oneComparison onlyAmount_rejects ?_ nofun ?_
  · refine hvalue.1 (hvalue.2.2 _ _ _ rfl ⟨rfl, trivial, trivial⟩ ?_ trivial ?_)
    · simp only [ArithExpr.InRange, ArithExpr.InRangeFrom, ArithProduct.InRangeFrom,
        ArithFactor.InRange, IsSmall]
      decide
    · simp only [ArithExpr.InRange, ArithExpr.InRangeFrom, ArithProduct.InRangeFrom,
        ArithFactor.InRange, IsSmall]
      decide
  · intro cmp hcmp v hv
    cases List.mem_singleton.mp hcmp
    cases List.mem_singleton.mp hv
    rfl
  · intro cmp hcmp v hv
    cases List.mem_singleton.mp hcmp
    cases hv

/-- `$x > 3 && $x < 10`. -/
def twoComparisons : CondOr :=
  .single (.and
    (.comparison (.numbers (.single (.single (.var amount))) ⟨.gt, trivial⟩
      (.single (.single (.literal three)))))
    (.single (.comparison (.numbers (.single (.single (.var amount))) ⟨.lt, trivial⟩
      (.single (.single (.literal ten)))))))

/-- **`$x > 3 && $x < 10` has no value**: what follows the `>` is no number. -/
theorem evaluate_twoComparisons :
    String.ofList twoComparisons.text = "$x > 3 && $x < 10" ∧
      twoComparisons.holds (fun _ ↦ 5) (fun _ ↦ "") = true ∧
      evaluateSimpleRhsCondition bareLibrary onlyAmount twoComparisons.text = none := by
  refine ⟨rfl, rfl, ?_⟩
  decide +kernel

end RulesForge
