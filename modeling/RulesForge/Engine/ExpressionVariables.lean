import RulesForge.Engine.ConditionEvaluation

/-!
# The variables of an expression

The evaluators ask for a variable where the parts of a text come down to one that begins with a
`$` (`mentions`). The value of a text depends on nothing else that is looked up
(`evaluateText_congr`).

Which node evaluates the expression of a constraint is decided by another reading of the text, the
scan for a variable with a dot after it (`expression_references_dotted_binding`). What is asked for
stands in the text at the front or after a space, a comma, an operator or a parenthesis
(`standsIn_of_mem_mentionsFrom`), and there the scan sees it.
-/

namespace RulesForge

/-! ### What is asked for -/

/-- The variable a text without an operator is, if it is one. -/
def atomMentions (text : List Char) : List (List Char) :=
  if text.head? = some '$' then [text] else []

/-- The variables an evaluator asks for, with the bound of `evaluateText`. -/
def mentionsFrom : ℕ → List Char → List (List Char)
  | 0, _ => []
  | fuel + 1, expression =>
    let text := trimAscii expression
    if text = [] then []
    else if hasWrappingParentheses text then mentionsFrom fuel (text.drop 1).dropLast
    else if text = ['p', 'i'] then []
    else
      match parseFunctionCall text with
      | some (_, args) => args.flatMap (mentionsFrom fuel)
      | none =>
        match findTopLevelArithmetic text with
        | some (lhs, _, rhs) => mentionsFrom fuel lhs ++ mentionsFrom fuel rhs
        | none => atomMentions text

def mentions (expression : List Char) : List (List Char) :=
  mentionsFrom (expression.length + 1) expression

section Congruence

variable {evaluator : TextEvaluator} {resolve : List Char → Option ConstraintValue}

theorem mapM_congr_of_mem {α β : Type} {f g : α → Option β} {xs : List α}
    (h : ∀ x ∈ xs, f x = g x) : xs.mapM f = xs.mapM g := by
  induction xs with
  | nil => rfl
  | cons x xs ih =>
    rw [List.mapM_cons, List.mapM_cons, h x List.mem_cons_self,
      ih fun y hy ↦ h y (List.mem_cons_of_mem x hy)]

theorem atom_congr {text : List Char}
    (h : ∀ v ∈ atomMentions text, evaluator.resolve v = resolve v) :
    evaluator.atom text = { evaluator with resolve := resolve }.atom text := by
  unfold TextEvaluator.atom
  by_cases hvariable : text.head? = some '$'
  · have hself : text ∈ atomMentions text := by
      rw [atomMentions, if_pos hvariable]
      exact List.mem_singleton_self text
    simp only [h text hself]
  · simp only [if_neg hvariable]

/-- **A value depends on the variables that are asked for**: two ways to resolve variables that
agree on them give a text the same value. -/
theorem evaluateText_congr : ∀ {fuel : ℕ} {text : List Char},
    (∀ v ∈ mentionsFrom fuel text, evaluator.resolve v = resolve v) →
    evaluator.evaluateText fuel text =
      { evaluator with resolve := resolve }.evaluateText fuel text
  | 0, _, _ => rfl
  | fuel + 1, expression, h => by
    rw [mentionsFrom] at h
    rw [TextEvaluator.evaluateText, TextEvaluator.evaluateText]
    dsimp only at h ⊢
    generalize trimAscii expression = text at h ⊢
    by_cases hempty : text = []
    · rw [if_pos hempty, if_pos hempty]
    rw [if_neg hempty] at h
    rw [if_neg hempty, if_neg hempty]
    by_cases hwraps : hasWrappingParentheses text = true
    · rw [if_pos hwraps] at h
      rw [if_pos hwraps, if_pos hwraps]
      exact evaluateText_congr h
    rw [if_neg hwraps] at h
    rw [if_neg hwraps, if_neg hwraps]
    by_cases hpi : text = ['p', 'i']
    · rw [if_pos hpi, if_pos hpi]
    rw [if_neg hpi] at h
    rw [if_neg hpi, if_neg hpi]
    rcases hcall : parseFunctionCall text with _ | ⟨name, args⟩
    · rw [hcall] at h
      rcases hsplit : findTopLevelArithmetic text with _ | ⟨lhs, sign, rhs⟩
      · rw [hsplit] at h
        exact atom_congr h
      · rw [hsplit] at h
        dsimp only at h ⊢
        rw [evaluateText_congr fun v hv ↦ h v (List.mem_append_left _ hv),
          evaluateText_congr fun v hv ↦ h v (List.mem_append_right _ hv)]
        rfl
    · rw [hcall] at h
      dsimp only at h ⊢
      have hargs : ∀ arg ∈ args, evaluator.evaluateText fuel arg =
          { evaluator with resolve := resolve }.evaluateText fuel arg :=
        fun arg harg ↦ evaluateText_congr fun v hv ↦ h v (List.mem_flatMap.mpr ⟨arg, harg, hv⟩)
      rw [mapM_congr_of_mem fun arg harg ↦ by rw [hargs arg harg]]

theorem evaluateSimpleRuntimeExpression_congr {library : NumberLibrary}
    {resolve resolve' : List Char → Option ConstraintValue} {expression : List Char}
    (h : ∀ v ∈ mentions expression, resolve v = resolve' v) :
    evaluateSimpleRuntimeExpression library resolve expression =
      evaluateSimpleRuntimeExpression library resolve' expression :=
  evaluateText_congr h

end Congruence

/-! ### Where a variable stands -/

/-- A letter that neither goes on with a variable nor begins one. -/
def isBreak (c : Char) : Bool :=
  !isIdentifierChar c && c ≠ '$'

/-- A part of a text that stands at its front or after a break. -/
def StandsIn (part text : List Char) : Prop :=
  ∃ before after, text = before ++ (part ++ after) ∧ ∀ c ∈ before.getLast?, isBreak c = true

section Parts

variable {part text text' before after arg lhs rhs v : List Char} {c : Char}

theorem StandsIn.of_front (h : part <+: text) : StandsIn part text := by
  obtain ⟨after, rfl⟩ := h
  exact ⟨[], after, rfl, by simp⟩

theorem StandsIn.trans (h : StandsIn part text) (h' : StandsIn text text') :
    StandsIn part text' := by
  obtain ⟨before, after, rfl, hbefore⟩ := h
  obtain ⟨before', after', rfl, hbefore'⟩ := h'
  refine ⟨before' ++ before, after ++ after', by simp, fun c hc ↦ ?_⟩
  -- what stands before the part ends as `before` does, or as `before'` if that is empty
  cases hlast : before.getLast? with
  | none =>
    rw [List.getLast?_eq_none_iff.mp hlast, List.append_nil] at hc
    exact hbefore' c hc
  | some d =>
    rw [List.getLast?_append, hlast] at hc
    exact hbefore c (hlast.trans hc)

theorem StandsIn.after_break (hc : isBreak c = true) :
    StandsIn part (before ++ c :: (part ++ after)) := by
  refine ⟨before ++ [c], after, by simp, fun d hd ↦ ?_⟩
  rw [List.getLast?_concat] at hd
  cases hd
  exact hc

/-- Digits come first of the letters of identifiers. -/
theorem le_toNat_of_isIdentifierChar (h : isIdentifierChar c = true) : 48 ≤ c.toNat := by
  rcases Bool.or_eq_true_iff.mp h with hletter | hline
  · exact le_toNat_of_isAlphanum hletter
  · rw [of_decide_eq_true hline]
    decide

theorem isBreak_of_toNat_lt (h : c.toNat < 48) (hdollar : c ≠ '$') : isBreak c = true := by
  have hnot : isIdentifierChar c = false := Bool.eq_false_iff.mpr fun hc ↦ by
    have hle := le_toNat_of_isIdentifierChar hc
    omega
  simp [isBreak, hnot, hdollar]

theorem isBreak_of_isSpace (h : isSpace c = true) : isBreak c = true := by
  simp only [isSpace, Bool.or_eq_true, Bool.and_eq_true, decide_eq_true_eq] at h
  rcases h with rfl | ⟨-, hhigh⟩
  · rfl
  · refine isBreak_of_toNat_lt (by omega) ?_
    rintro rfl
    exact absurd hhigh (by decide)

theorem standsIn_trimAscii (text : List Char) : StandsIn (trimAscii text) text := by
  have hprefix : StandsIn (trimAscii text) (text.dropWhile isSpace) :=
    .of_front (List.rdropWhile_prefix _ _)
  refine hprefix.trans ⟨text.takeWhile isSpace, [], ?_, fun c hc ↦ ?_⟩
  · rw [List.append_nil, List.takeWhile_append_dropWhile]
  · exact isBreak_of_isSpace (List.mem_takeWhile_imp (List.mem_of_getLast? hc))

/-- The arguments of a function stand in the text between its parentheses. -/
theorem standsIn_splitArguments {s : Scan} (harg : arg ∈ splitArguments s before text) :
    StandsIn arg (before ++ text) := by
  induction text generalizing s before with
  | nil =>
    rw [splitArguments, List.mem_singleton] at harg
    rw [harg, List.append_nil]
    exact standsIn_trimAscii before
  | cons c text ih =>
    rw [splitArguments] at harg
    split at harg
    · next hsplit =>
      have hc : c = ',' := of_decide_eq_true (Bool.and_eq_true _ _ ▸ hsplit).2
      rcases List.mem_cons.mp harg with rfl | harg
      · exact (standsIn_trimAscii before).trans (.of_front (List.prefix_append _ _))
      · have hrest : StandsIn text (before ++ c :: (text ++ [])) :=
          .after_break (by rw [hc]; decide)
        rw [List.append_nil] at hrest
        exact (ih harg).trans hrest
    · have hrest := ih harg
      rwa [List.append_assoc, List.singleton_append] at hrest

theorem isBreak_of_isOperator (h : isOperator 0 c = true ∨ isOperator 1 c = true) :
    isBreak c = true := by
  simp only [isOperator, if_true, one_ne_zero, if_false, Bool.or_eq_true, decide_eq_true_eq] at h
  rcases h with (rfl | rfl) | rfl | rfl <;> decide

/-- The text in parentheses around a text. -/
theorem standsIn_of_hasWrappingParentheses (h : hasWrappingParentheses text = true) :
    StandsIn (text.drop 1).dropLast text := by
  obtain ⟨inner, rfl⟩ := exists_inner_of_hasWrappingParentheses h
  have hinner : (('(' :: inner ++ [')']).drop 1).dropLast = inner := by simp
  rw [hinner]
  exact @StandsIn.after_break inner [] [')'] '(' rfl

theorem standsIn_of_parseFunctionCall {name : String} {args : List (List Char)}
    (h : parseFunctionCall text = some (name, args)) (harg : arg ∈ args) : StandsIn arg text := by
  obtain ⟨inner, hinner, rfl⟩ := parseFunctionCall_eq_some h
  have htext : text = text.takeWhile isNameLetter ++ '(' :: (inner ++ [')']) := by
    have hjoin := @List.takeWhile_append_dropWhile _ isNameLetter text
    rw [hinner] at hjoin
    simpa using hjoin.symm
  have hargs : StandsIn inner text := by
    rw [htext]
    exact .after_break rfl
  exact (standsIn_splitArguments harg).trans hargs

theorem standsIn_of_findTopLevelArithmetic {sign : Char}
    (h : findTopLevelArithmetic text = some (lhs, sign, rhs)) :
    StandsIn lhs text ∧ StandsIn rhs text := by
  obtain ⟨rfl, hsign, -, -⟩ := findTopLevelArithmetic_eq_some h
  have hrhs := @StandsIn.after_break rhs lhs [] sign (isBreak_of_isOperator hsign)
  rw [List.append_nil] at hrhs
  exact ⟨.of_front (List.prefix_append _ _), hrhs⟩

/-- **What is asked for stands after a break**, by recursion on the parts of a text. -/
theorem standsIn_of_mem_mentionsFrom : ∀ {fuel : ℕ} {text : List Char},
    v ∈ mentionsFrom fuel text → StandsIn v text
  | 0, _, h => absurd h List.not_mem_nil
  | fuel + 1, expression, h => by
    rw [mentionsFrom] at h
    refine StandsIn.trans ?_ (standsIn_trimAscii expression)
    generalize trimAscii expression = text at h ⊢
    by_cases hempty : text = []
    · rw [if_pos hempty] at h
      exact absurd h List.not_mem_nil
    rw [if_neg hempty] at h
    by_cases hwraps : hasWrappingParentheses text = true
    · rw [if_pos hwraps] at h
      exact (standsIn_of_mem_mentionsFrom h).trans (standsIn_of_hasWrappingParentheses hwraps)
    rw [if_neg hwraps] at h
    by_cases hpi : text = ['p', 'i']
    · rw [if_pos hpi] at h
      exact absurd h List.not_mem_nil
    rw [if_neg hpi] at h
    rcases hcall : parseFunctionCall text with _ | ⟨name, args⟩
    · rw [hcall] at h
      rcases hsplit : findTopLevelArithmetic text with _ | ⟨lhs, sign, rhs⟩
      · rw [hsplit] at h
        have hself : v = text := by
          have hmem : v ∈ atomMentions text := h
          rw [atomMentions] at hmem
          split at hmem
          · exact List.mem_singleton.mp hmem
          · exact absurd hmem List.not_mem_nil
        rw [hself]
        exact .of_front (List.prefix_refl text)
      · rw [hsplit] at h
        obtain ⟨hlhs, hrhs⟩ := standsIn_of_findTopLevelArithmetic hsplit
        rcases List.mem_append.mp h with h | h
        · exact (standsIn_of_mem_mentionsFrom h).trans hlhs
        · exact (standsIn_of_mem_mentionsFrom h).trans hrhs
    · rw [hcall] at h
      obtain ⟨arg, harg, h⟩ := List.mem_flatMap.mp h
      exact (standsIn_of_mem_mentionsFrom h).trans (standsIn_of_parseFunctionCall hcall harg)

end Parts

/-! ### What the scan sees -/

section Scan

variable {name after : List Char}

/-- A variable with a dot after it that stands after a break is seen: the scan comes to its `$`,
or has found another one before. -/
theorem referencesDottedBindingFrom_of_break (hname : name.all isIdentifierChar = true) {fuel : ℕ}
    {before : List Char} (hbefore : ∀ c ∈ before.getLast?, isBreak c = true)
    (hfuel : before.length < fuel) :
    referencesDottedBindingFrom fuel (before ++ '$' :: (name ++ '.' :: after)) = true := by
  induction fuel generalizing before with
  | zero => exact absurd hfuel (Nat.not_lt_zero _)
  | succ fuel ih =>
    rcases before with _ | ⟨c, before⟩
    · have hdrop : (name ++ '.' :: after).dropWhile isIdentifierChar = '.' :: after := by
        rw [List.dropWhile_append_of_pos fun c hc ↦ List.all_eq_true.mp hname c hc]
        rfl
      show referencesDottedBindingFrom (fuel + 1) ('$' :: (name ++ '.' :: after)) = true
      rw [referencesDottedBindingFrom, if_neg (by simp), hdrop]
      rfl
    · have hfuel : before.length < fuel := Nat.lt_of_succ_lt_succ hfuel
      have htail : ∀ {front tail : List Char}, c :: before = front ++ tail →
          ∀ d ∈ tail.getLast?, isBreak d = true := by
        intro front tail heq d hd
        refine hbefore d ?_
        rw [heq, List.getLast?_append, show tail.getLast? = some d from hd]
        rfl
      rw [List.cons_append, referencesDottedBindingFrom]
      by_cases hc : c = '$'
      · rw [if_neg (not_not.mpr hc), List.dropWhile_append]
        rcases hdrop : before.dropWhile isIdentifierChar with _ | ⟨d, rest⟩
        · -- the letters up to the variable would all be of one that has no end
          have hlast : ∃ d, (c :: before).getLast? = some d ∧ isBreak d = false := by
            rcases List.eq_nil_or_concat before with rfl | ⟨front, d, rfl⟩
            · exact ⟨c, rfl, by rw [hc]; rfl⟩
            · rw [List.concat_eq_append] at hdrop ⊢
              refine ⟨d, by rw [← List.cons_append, List.getLast?_concat], ?_⟩
              have hd : isIdentifierChar d = true :=
                List.dropWhile_eq_nil_iff.mp hdrop d (by simp)
              simp [isBreak, hd]
          obtain ⟨d, hd, hnot⟩ := hlast
          exact Bool.noConfusion ((hbefore d hd).symm.trans hnot)
        · have hjoin := @List.takeWhile_append_dropWhile _ isIdentifierChar before
          rw [hdrop] at hjoin
          have hlength := congrArg List.length hjoin
          rw [List.length_append, List.length_cons] at hlength
          -- the letter that ended the variable is skipped
          have hrest : referencesDottedBindingFrom fuel (rest ++ '$' :: (name ++ '.' :: after)) =
              true := by
            refine ih ?_ (by omega)
            refine @htail (c :: before.takeWhile isIdentifierChar ++ [d]) rest ?_
            rw [List.append_assoc, List.cons_append, List.singleton_append, hjoin]
          rw [List.isEmpty_cons, if_neg Bool.false_ne_true, List.cons_append]
          split
          · next heq => cases heq
          · rfl
          · next heq =>
            cases heq
            exact hrest
      · rw [if_pos hc]
        exact ih (@htail [c] before rfl) hfuel

/-- A variable with a dot after it that an expression asks for makes the expression one of a join
condition. -/
theorem expressionReferencesDottedBinding_of_mem {expression : String}
    (hname : name.all isIdentifierChar = true)
    (h : '$' :: (name ++ '.' :: after) ∈ mentions expression.toList) :
    expressionReferencesDottedBinding expression = true := by
  obtain ⟨before, rest, htext, hbefore⟩ := standsIn_of_mem_mentionsFrom h
  have hlength := congrArg List.length htext
  rw [String.length_toList] at hlength
  simp only [List.length_append, List.length_cons] at hlength
  rw [expressionReferencesDottedBinding, htext, List.cons_append, List.append_assoc,
    List.cons_append]
  exact referencesDottedBindingFrom_of_break hname hbefore (by omega)

end Scan

end RulesForge
