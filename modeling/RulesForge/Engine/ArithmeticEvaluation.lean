import RulesForge.Engine.ArithmeticText

/-!
# What the evaluators make of arithmetic texts

The texts of expressions are level and tight, and the passes over them are told from the texts of
the parts: a product is passed as a whole unless a later factor has a sign. An evaluator returns
for each text what the expression is when it is read from the right (`ArithExpr.evaluate`).
-/

namespace RulesForge

/-! ### Trimmed texts -/

/-- A text that begins and ends with a letter that is no space. -/
structure Tight (text : List Char) : Prop where
  head : ∃ c tail, text = c :: tail ∧ isSpace c = false
  last : ∃ init c, text = init ++ [c] ∧ isSpace c = false

section Trim

variable {text text' : List Char} {c : Char}

theorem trimAscii_cons_space (text : List Char) : trimAscii (' ' :: text) = trimAscii text := rfl

theorem dropWhile_concat {p : Char → Bool} (hc : p c = false) (text : List Char) :
    (text ++ [c]).dropWhile p = text.dropWhile p ++ [c] := by
  induction text with
  | nil => simp [hc]
  | cons d text ih =>
    rw [List.cons_append, List.dropWhile_cons, List.dropWhile_cons]
    split
    · exact ih
    · rfl

/-- What remains when the last letter is no space. -/
theorem trimAscii_concat (hc : isSpace c = false) (text : List Char) :
    trimAscii (text ++ [c]) = text.dropWhile isSpace ++ [c] := by
  rw [trimAscii, dropWhile_concat hc, List.rdropWhile_concat_neg _ _ _ (by simp [hc])]

/-- A space at the end is dropped. -/
theorem trimAscii_concat_space (text : List Char) :
    trimAscii (text ++ [' ']) = trimAscii text := by
  induction text with
  | nil => rfl
  | cons d text ih =>
    rw [trimAscii, trimAscii, List.cons_append, List.dropWhile_cons, List.dropWhile_cons]
    split
    · exact ih
    · exact List.rdropWhile_concat_pos isSpace (d :: text) ' ' rfl

namespace Tight

theorem trim (h : Tight text) : trimAscii text = text := by
  obtain ⟨c, tail, htext, hc⟩ := h.head
  obtain ⟨init, d, rfl, hd⟩ := h.last
  rw [trimAscii_concat hd]
  cases init with
  | nil => rfl
  | cons e init =>
    cases htext
    rw [List.dropWhile_cons, if_neg (by simp [hc])]

theorem ne_nil (h : Tight text) : text ≠ [] := by
  obtain ⟨c, tail, rfl, -⟩ := h.head
  exact List.cons_ne_nil c tail

/-- Two tight texts with something between them. -/
theorem append (h : Tight text) (h' : Tight text') (between : List Char) :
    Tight (text ++ between ++ text') := by
  obtain ⟨c, tail, rfl, hc⟩ := h.head
  obtain ⟨init, d, rfl, hd⟩ := h'.last
  exact ⟨⟨c, tail ++ between ++ (init ++ [d]), by simp, hc⟩,
    ⟨c :: tail ++ between ++ init, d, by simp, hd⟩⟩

theorem of_forall (hne : text ≠ []) (h : ∀ c ∈ text, isSpace c = false) : Tight text := by
  refine ⟨?_, text.dropLast, text.getLast hne, (List.dropLast_append_getLast hne).symm,
    h _ (List.getLast_mem hne)⟩
  obtain ⟨c, tail, rfl⟩ := List.exists_cons_of_ne_nil hne
  exact ⟨c, tail, rfl, h c List.mem_cons_self⟩

end Tight

end Trim

/-! ### Texts of expressions -/

/-- The letters that an expression begins with. -/
def isStart (c : Char) : Bool :=
  c = '$' || c = '-' || c = '(' || c.isDigit

theorem isDigit_plain {c : Char} (h : c.isDigit = true) :
    isMark c = false ∧ isSpace c = false ∧ isOperator 0 c = false ∧ isOperator 1 c = false := by
  simp only [Char.isDigit, Bool.and_eq_true, decide_eq_true_eq, ge_iff_le, UInt32.le_iff_toNat_le]
    at h
  obtain ⟨hlow, hhigh⟩ := h
  have hlow : 48 ≤ c.toNat := hlow
  have hhigh : c.toNat ≤ 57 := hhigh
  have hne : ∀ d : Char, d.toNat < 48 ∨ 57 < d.toNat → c ≠ d := by
    rintro d hd rfl
    omega
  refine ⟨?_, ?_, ?_, ?_⟩
  · simp [isMark, hne]
  · simp only [isSpace, Bool.or_eq_false_iff, decide_eq_false_iff_not, Bool.and_eq_false_imp]
    refine ⟨hne ' ' (.inl (by decide)), ?_⟩
    simp
    omega
  · simp [isOperator, hne]
  · simp [isOperator, hne]

theorem isVariableLetter_plain {c : Char} (h : isVariableLetter c = true) :
    isMark c = false ∧ isSpace c = false ∧ isOperator 0 c = false ∧ isOperator 1 c = false := by
  simp only [isVariableLetter, Bool.and_eq_true, Bool.not_eq_true'] at h
  exact ⟨h.1.1.1.1, h.1.1.1.2, h.1.1.2, h.1.2⟩

/-- A letter that is no operator is not wanted. -/
theorem wantedOperator_of_not {pass : ℕ} {before : List Char} {c : Char}
    (h : isOperator pass c = false) : wantedOperator pass before c = false := by
  rw [wantedOperator, h, Bool.false_and]

/-- After a space every operator is wanted. -/
theorem wantedOperator_after_space {pass : ℕ} (before : List Char) {c : Char}
    (h : isOperator pass c = true) : wantedOperator pass (before ++ [' ']) c = true := by
  have hsign : isExponentSign (before ++ [' ']) c = false := by
    simp [isExponentSign]
  rw [wantedOperator, h, hsign]
  rfl

theorem ExprVariable.plain (v : ExprVariable) (c : Char) (hc : c ∈ v.text) :
    isMark c = false ∧ isSpace c = false ∧ isOperator 0 c = false ∧ isOperator 1 c = false := by
  rcases List.mem_cons.mp hc with rfl | hc
  · decide
  · exact isVariableLetter_plain (List.all_eq_true.mp v.isLetter c hc)

theorem IntLiteral.plain (l : IntLiteral) (c : Char) (hc : c ∈ l.digits) :
    isMark c = false ∧ isSpace c = false ∧ isOperator 0 c = false ∧ isOperator 1 c = false :=
  isDigit_plain (List.all_eq_true.mp l.isDigit c hc)

theorem IntLiteral.text_of_negative {l : IntLiteral} (h : l.negative = true) :
    l.text = '-' :: l.digits := if_pos h

theorem IntLiteral.text_of_not {l : IntLiteral} (h : l.negative = false) : l.text = l.digits := by
  rw [IntLiteral.text, h]
  rfl

theorem IntLiteral.text_ne_nil (l : IntLiteral) : l.text ≠ [] := by
  cases h : l.negative with
  | true => exact l.text_of_negative h ▸ List.cons_ne_nil _ _
  | false => exact l.text_of_not h ▸ l.digits_ne_nil

/-- The sign is only an operator of the first pass. -/
theorem IntLiteral.mem_text (l : IntLiteral) {c : Char} (hc : c ∈ l.text) :
    isMark c = false ∧ isSpace c = false ∧ isOperator 1 c = false := by
  cases h : l.negative with
  | true =>
    rw [l.text_of_negative h] at hc
    rcases List.mem_cons.mp hc with rfl | hc
    · decide
    · exact ⟨(l.plain c hc).1, (l.plain c hc).2.1, (l.plain c hc).2.2.2⟩
  | false =>
    rw [l.text_of_not h] at hc
    exact ⟨(l.plain c hc).1, (l.plain c hc).2.1, (l.plain c hc).2.2.2⟩

mutual

theorem ArithFactor.level_tight : ∀ f : ArithFactor, Level f.text ∧ Tight f.text
  | .literal l => ⟨.of_plain fun _ hc ↦ (l.mem_text hc).1,
      .of_forall l.text_ne_nil fun _ hc ↦ (l.mem_text hc).2.1⟩
  | .var v => ⟨.of_plain fun c hc ↦ (v.plain c hc).1,
      .of_forall (List.cons_ne_nil _ _) fun c hc ↦ (v.plain c hc).2.1⟩
  | .paren e => by
    refine ⟨e.level_tight.1.parenthesised, ⟨'(', e.text ++ [')'], rfl, rfl⟩,
      '(' :: e.text, ')', rfl, rfl⟩

theorem ArithProduct.level_tight : ∀ p : ArithProduct, Level p.text ∧ Tight p.text
  | .single f => f.level_tight
  | .times f rest => by
    obtain ⟨hlevel, htight⟩ := f.level_tight
    obtain ⟨hlevel', htight'⟩ := rest.level_tight
    refine ⟨hlevel.append (.plain rfl (.plain rfl (.plain rfl hlevel'))), ?_⟩
    have happend := htight.append htight' [' ', '*', ' ']
    rwa [List.append_assoc] at happend

theorem ArithExpr.level_tight : ∀ e : ArithExpr, Level e.text ∧ Tight e.text
  | .single p => p.level_tight
  | .step p op rest => by
    obtain ⟨hlevel, htight⟩ := p.level_tight
    obtain ⟨hlevel', htight'⟩ := rest.level_tight
    have hsign : isMark op.sign = false := by cases op <;> rfl
    refine ⟨hlevel.append (.plain rfl (.plain hsign (.plain rfl hlevel'))), ?_⟩
    have happend := htight.append htight' [' ', op.sign, ' ']
    rwa [List.append_assoc] at happend

end

theorem ArithFactor.start (f : ArithFactor) : ∃ c tail, f.text = c :: tail ∧ isStart c = true := by
  cases f with
  | literal l =>
    cases h : l.negative with
    | true => exact ⟨'-', l.digits, l.text_of_negative h, rfl⟩
    | false =>
      obtain ⟨c, tail, hdigits⟩ := List.exists_cons_of_ne_nil l.digits_ne_nil
      have hc := List.all_eq_true.mp l.isDigit c (hdigits ▸ List.mem_cons_self)
      exact ⟨c, tail, (l.text_of_not h).trans hdigits, by simp [isStart, hc]⟩
  | var v => exact ⟨'$', v.letters, rfl, rfl⟩
  | paren e => exact ⟨'(', e.text ++ [')'], rfl, rfl⟩

theorem ArithFactor.text_of_isSigned {f : ArithFactor} (h : f.IsSigned = true) :
    ∃ digits, f.text = '-' :: digits := by
  cases f with
  | literal l => exact ⟨l.digits, l.text_of_negative h⟩
  | var v => cases h
  | paren e => cases h

/-- A text that begins with a factor, and with a letter of its own. -/
theorem ArithProduct.exists_text (p : ArithProduct) : ∃ after, p.text = p.first.text ++ after := by
  cases p with
  | single f => exact ⟨[], (List.append_nil _).symm⟩
  | times f rest => exact ⟨_, rfl⟩

/-- A factor with something after it is not one pair of parentheses. -/
theorem ArithFactor.not_wrapping (f : ArithFactor) {after : List Char} (hafter : after ≠ []) :
    hasWrappingParentheses (f.text ++ after) = false := by
  have hunmarked : ∀ {text : List Char}, text ≠ [] → (∀ c ∈ text, isMark c = false) →
      hasWrappingParentheses (text ++ after) = false := by
    intro text hne htext
    obtain ⟨c, tail, rfl⟩ := List.exists_cons_of_ne_nil hne
    exact not_wrapping_of_head (htext c List.mem_cons_self) _
  cases f with
  | paren e =>
    have hfalse := Level.hasWrappingParentheses_pair_append e.level_tight.1 hafter
    simpa [ArithFactor.text] using hfalse
  | literal l => exact hunmarked l.text_ne_nil fun c hc ↦ (l.mem_text hc).1
  | var v => exact hunmarked (List.cons_ne_nil _ _) fun c hc ↦ (v.plain c hc).1

theorem ArithProduct.not_wrapping (p : ArithProduct) {after : List Char} (hafter : after ≠ []) :
    hasWrappingParentheses (p.text ++ after) = false := by
  obtain ⟨own, hown⟩ := p.exists_text
  rw [hown, List.append_assoc]
  exact p.first.not_wrapping (List.append_ne_nil_of_right_ne_nil own hafter)

/-! ### Operators in the texts -/

/-- A factor is passed, unless it has a sign that stands within the text. -/
theorem ArithFactor.passed (f : ArithFactor) {pass : ℕ} (hpass : pass = 0 ∨ pass = 1)
    {before rest : List Char} (hsign : pass = 0 → f.IsSigned = true → before = []) :
    splitAtTop (wantedOperator pass) {} before (f.text ++ rest) =
      splitAtTop (wantedOperator pass) {} (before ++ f.text) rest := by
  cases f with
  | paren e =>
    have hpair := @Level.splitAtTop_pair (wantedOperator pass) before e.text rest 0
      e.level_tight.1 le_rfl
    show splitAtTop _ _ _ ('(' :: e.text ++ [')'] ++ rest) = _
    rw [List.append_assoc]
    exact hpair
  | var v =>
    refine splitAtTop_plain (fun c hc ↦ (v.plain c hc).1) fun c hc before ↦ ?_
    obtain ⟨-, -, hzero, hone⟩ := v.plain c hc
    rcases hpass with rfl | rfl
    · exact wantedOperator_of_not hzero
    · exact wantedOperator_of_not hone
  | literal l =>
    rcases hpass with rfl | rfl
    · cases h : l.negative with
      | false =>
        show splitAtTop _ _ _ (l.text ++ rest) = splitAtTop _ _ (before ++ l.text) rest
        rw [l.text_of_not h]
        exact splitAtTop_plain (fun c hc ↦ (l.plain c hc).1) fun c hc before ↦
          wantedOperator_of_not (l.plain c hc).2.2.1
      | true =>
        obtain rfl := hsign rfl h
        show splitAtTop _ _ [] (l.text ++ rest) = splitAtTop _ _ ([] ++ l.text) rest
        rw [l.text_of_negative h, List.cons_append, splitAtTop_cons_of_not rfl]
        have hdigits := @splitAtTop_plain (wantedOperator 0) ['-'] l.digits rest 0
          (fun c hc ↦ (l.plain c hc).1) fun c hc before ↦
            wantedOperator_of_not (l.plain c hc).2.2.1
        exact hdigits
    · exact splitAtTop_plain (fun c hc ↦ (l.mem_text hc).1) fun c hc before ↦
        wantedOperator_of_not (l.mem_text hc).2.2

/-- No later factor of a product has a sign. -/
def ArithProduct.Plain : ArithProduct → Prop
  | .single _ => True
  | .times _ rest => rest.first.IsSigned = false ∧ rest.Plain

/-- Between two factors nothing is wanted in the first pass. -/
theorem splitAtTop_times (before rest : List Char) :
    splitAtTop (wantedOperator 0) {} before (' ' :: '*' :: ' ' :: rest) =
      splitAtTop (wantedOperator 0) {} (before ++ [' ', '*', ' ']) rest := by
  rw [splitAtTop_cons_of_not rfl, splitAtTop_cons_of_not rfl, splitAtTop_cons_of_not rfl]
  simp only [List.append_assoc]
  rfl

/-- The first pass goes over a product without such a sign. -/
theorem ArithProduct.Plain.passed : ∀ {p : ArithProduct}, p.Plain → ∀ {before rest : List Char},
    (p.first.IsSigned = true → before = []) →
      splitAtTop (wantedOperator 0) {} before (p.text ++ rest) =
        splitAtTop (wantedOperator 0) {} (before ++ p.text) rest
  | .single f, _, _, _, hsign => f.passed (.inl rfl) fun _ ↦ hsign
  | .times f tail, h, before, rest, hsign => by
    have htail := @ArithProduct.Plain.passed tail h.2 (before ++ f.text ++ [' ', '*', ' ']) rest
      fun hsigned ↦ Bool.noConfusion (h.1.symm.trans hsigned)
    show splitAtTop _ _ _ (f.text ++ ' ' :: '*' :: ' ' :: tail.text ++ rest) =
      splitAtTop _ _ (before ++ (f.text ++ ' ' :: '*' :: ' ' :: tail.text)) rest
    rw [List.append_assoc, f.passed (.inl rfl) fun _ ↦ hsign]
    refine (splitAtTop_times _ _).trans (htail.trans ?_)
    simp only [List.append_assoc]
    rfl

/-- Otherwise it stops at such a sign, behind a `*`. -/
theorem ArithProduct.stopped : ∀ {p : ArithProduct}, ¬ p.Plain → ∀ {before : List Char}
    (rest : List Char), Level before → (p.first.IsSigned = true → before = []) →
      ∃ lhs rhs, Level lhs ∧
        splitAtTop (wantedOperator 0) {} before (p.text ++ rest) =
          some (lhs ++ ['*', ' '], '-', rhs)
  | .single f, h, _, _, _, _ => absurd trivial h
  | .times f tail, h, before, rest, hlevel, hsign => by
    show ∃ lhs rhs, _ ∧
      splitAtTop _ _ _ (f.text ++ ' ' :: '*' :: ' ' :: tail.text ++ rest) = _
    rw [List.append_assoc, f.passed (.inl rfl) fun _ ↦ hsign]
    have hlhs : Level (before ++ f.text ++ [' ']) :=
      (hlevel.append f.level_tight.1).append (.plain rfl .nil)
    have htimes := splitAtTop_times (before ++ f.text) (tail.text ++ rest)
    cases hsigned : tail.first.IsSigned with
    | true =>
      -- the sign of the next factor is at the top, after a space
      obtain ⟨digits, hdigits⟩ := ArithFactor.text_of_isSigned hsigned
      obtain ⟨own, hown⟩ := tail.exists_text
      rw [hown, hdigits] at htimes ⊢
      have hspace : before ++ f.text ++ [' ', '*', ' '] =
          before ++ f.text ++ [' '] ++ ['*'] ++ [' '] := by simp
      refine ⟨before ++ f.text ++ [' '], digits ++ own ++ rest, hlhs, ?_⟩
      refine (Eq.trans ?_ htimes).trans ?_
      · simp
      · rw [hspace]
        have hwanted := @wantedOperator_after_space 0 (before ++ f.text ++ [' '] ++ ['*']) '-' rfl
        refine (splitAtTop_cons_of_wanted rfl hwanted).trans ?_
        simp
    | false =>
      have hplain : ¬ tail.Plain := fun hplain ↦ h ⟨hsigned, hplain⟩
      obtain ⟨lhs, rhs, hlevel', hstop⟩ := ArithProduct.stopped hplain rest
        (hlhs.append (.plain (c := '*') rfl (.plain (c := ' ') rfl .nil)))
        fun h' ↦ Bool.noConfusion (hsigned.symm.trans h')
      refine ⟨lhs, rhs, hlevel', htimes.trans ?_⟩
      simpa using hstop

/-- The two passes over a product without such a sign: the first finds nothing, and the second
the first `*`. -/
theorem ArithProduct.Plain.findTopLevelArithmetic {f : ArithFactor} {rest : ArithProduct}
    (h : (ArithProduct.times f rest).Plain) :
    findTopLevelArithmetic (ArithProduct.times f rest).text =
      some (f.text ++ [' '], '*', ' ' :: rest.text) := by
  have hfirst := @ArithProduct.Plain.passed _ h [] [] fun _ ↦ rfl
  rw [List.append_nil] at hfirst
  have hsecond := @ArithFactor.passed f 1 (.inr rfl) [] (' ' :: '*' :: ' ' :: rest.text) nofun
  rw [splitAtTop_cons_of_not rfl, splitAtTop_cons_of_wanted rfl
    (@wantedOperator_after_space 1 ([] ++ f.text) '*' rfl)] at hsecond
  rw [RulesForge.findTopLevelArithmetic, hfirst]
  exact hsecond

/-- The first pass over a sum finds its first operator. -/
theorem ArithProduct.Plain.findTopLevelArithmetic_step {p : ArithProduct} (h : p.Plain)
    (op : AddOp) (rest : ArithExpr) :
    RulesForge.findTopLevelArithmetic (ArithExpr.step p op rest).text =
      some (p.text ++ [' '], op.sign, ' ' :: rest.text) := by
  have hfirst := @ArithProduct.Plain.passed p h [] (' ' :: op.sign :: ' ' :: rest.text) fun _ ↦ rfl
  have hop : isOperator 0 op.sign = true := by cases op <;> rfl
  have htop : Scan.atTop {} op.sign = true := by cases op <;> rfl
  have hspace : Scan.next {} ' ' = {} := rfl
  rw [splitAtTop_cons_of_not rfl, hspace, splitAtTop_cons_of_wanted htop
    (wantedOperator_after_space ([] ++ p.text) hop)] at hfirst
  show (splitAtTop _ _ _ (p.text ++ ' ' :: op.sign :: ' ' :: rest.text)).or _ = _
  rw [hfirst]
  rfl

/-- A text without an operator. -/
theorem ArithFactor.findTopLevelArithmetic (f : ArithFactor) :
    RulesForge.findTopLevelArithmetic f.text = none := by
  have hpass : ∀ pass, pass = 0 ∨ pass = 1 →
      splitAtTop (wantedOperator pass) {} [] f.text = none := by
    intro pass hpass
    have hnone := @ArithFactor.passed f pass hpass [] [] fun _ _ ↦ rfl
    rwa [List.append_nil] at hnone
  rw [RulesForge.findTopLevelArithmetic, hpass 0 (.inl rfl), hpass 1 (.inr rfl)]
  rfl

/-! ### Evaluation -/

/-- What the two evaluators have in common: integers are numbers, and no constant is spelled like an
expression. -/
structure TextEvaluator.IsStandard (evaluator : TextEvaluator) : Prop where
  number : ∀ i, evaluator.number (.int64 i) = some (.ofInt i)
  constants : ∀ c text, isStart c = true →
    evaluator.constants.lookup (String.ofList (c :: text)) = none

section Evaluation

variable {evaluator : TextEvaluator} {fuel : ℕ} {expression text : List Char}

variable {c : Char}

theorem isNameStart_of_isStart (hc : isStart c = true) : isNameStart c = false := by
  simp only [isStart, Bool.or_eq_true, decide_eq_true_eq] at hc
  rcases hc with ((rfl | rfl) | rfl) | hdigit
  · rfl
  · rfl
  · rfl
  · refine Bool.eq_false_iff.mpr fun hname ↦ ?_
    have hhigh := (range_of_isDigit hdigit).2
    rcases Bool.or_eq_true_iff.mp hname with halpha | hline
    · have hlow := le_toNat_of_isAlpha halpha
      omega
    · rw [of_decide_eq_true hline] at hhigh
      exact absurd hhigh (by decide)

/-- A text that begins with no letter is no call of a function. -/
theorem parseFunctionCall_of_not (hc : isNameStart c = false) (text : List Char) :
    parseFunctionCall (c :: text) = none := by
  show (if isNameStart c = true then _ else none) = none
  rw [hc]
  rfl

theorem ne_pi_of_not (hc : isNameStart c = false) (text : List Char) :
    c :: text ≠ ['p', 'i'] := by
  rintro ⟨⟩
  exact Bool.noConfusion hc

/-- A pair of parentheses is dropped. -/
theorem evaluateText_of_wrapping {tail : List Char}
    (htrim : trimAscii expression = c :: tail)
    (hwraps : hasWrappingParentheses (c :: tail) = true) :
    evaluator.evaluateText (fuel + 1) expression = evaluator.evaluateText fuel tail.dropLast := by
  rw [TextEvaluator.evaluateText]
  simp only [htrim, if_neg (List.cons_ne_nil c tail), if_pos hwraps]
  rfl

/-- A text without an operator is read as a whole. -/
theorem evaluateText_of_atom {tail : List Char}
    (htrim : trimAscii expression = c :: tail) (hc : isNameStart c = false)
    (hwraps : hasWrappingParentheses (c :: tail) = false)
    (hsplit : findTopLevelArithmetic (c :: tail) = none) :
    evaluator.evaluateText (fuel + 1) expression = evaluator.atom (c :: tail) := by
  rw [TextEvaluator.evaluateText]
  simp only [htrim, if_neg (List.cons_ne_nil c tail), hwraps, if_neg (ne_pi_of_not hc tail),
    parseFunctionCall_of_not hc, hsplit]
  rfl

/-- A text is split at an operator. -/
theorem evaluateText_of_split {tail lhs rhs : List Char} {sign : Char}
    (htrim : trimAscii expression = c :: tail) (hc : isNameStart c = false)
    (hwraps : hasWrappingParentheses (c :: tail) = false)
    (hsplit : findTopLevelArithmetic (c :: tail) = some (lhs, sign, rhs)) :
    evaluator.evaluateText (fuel + 1) expression =
      (evaluator.evaluateText fuel lhs).bind fun a ↦
        (evaluator.evaluateText fuel rhs).bind (evaluator.arithmetic sign a) := by
  rw [TextEvaluator.evaluateText]
  simp only [htrim, if_neg (List.cons_ne_nil c tail), hwraps, if_neg (ne_pi_of_not hc tail),
    parseFunctionCall_of_not hc, hsplit]
  cases evaluator.evaluateText fuel lhs with
  | none => rfl
  | some a => cases evaluator.evaluateText fuel rhs <;> rfl

/-- Both sides being integers or without a value, so is the operation. -/
theorem TextEvaluator.IsStandard.arithmetic (h : evaluator.IsStandard) {sign : Char}
    (hsign : sign ≠ '/') (i j : Option ℤ) :
    ((i.map ConstraintValue.int64).bind fun a ↦
        (j.map ConstraintValue.int64).bind (evaluator.arithmetic sign a)) =
      (do
        let i ← i
        let j ← j
        some (evaluator.library.applySign sign i j)).map .int64 := by
  cases i with
  | none => rfl
  | some i =>
    cases j with
    | none => rfl
    | some j =>
      show evaluator.arithmetic sign (.int64 i) (.int64 j) = _
      simp only [TextEvaluator.arithmetic, h.number, hsign, false_and, if_false]
      rfl

/-- The text of a literal is read as its value. -/
theorem fromChars_text (l : IntLiteral) : fromChars l.text = some l.value := by
  have hinteger : integerOf l.negative l.digits = some l.value :=
    if_pos ⟨l.digits_ne_nil, l.isDigit, l.fits⟩
  cases hnegative : l.negative with
  | true =>
    rw [l.text_of_negative hnegative]
    rw [hnegative] at hinteger
    exact hinteger
  | false =>
    rw [l.text_of_not hnegative]
    rw [hnegative] at hinteger
    -- the first letter is a digit and no sign
    obtain ⟨c, tail, hdigits⟩ := List.exists_cons_of_ne_nil l.digits_ne_nil
    have hc := List.all_eq_true.mp l.isDigit c (hdigits ▸ List.mem_cons_self)
    rw [hdigits] at hinteger ⊢
    unfold fromChars
    split
    · next heq =>
      cases heq
      exact Bool.noConfusion hc
    · exact hinteger

/-- A text that begins with no quote is no string. -/
theorem not_quoted {tail : List Char} (hmark : isMark c = false) :
    ¬ ((c :: tail).head? = some '"' ∧ (c :: tail).getLast? = some '"' ∨
      (c :: tail).head? = some '\'' ∧ (c :: tail).getLast? = some '\'') := by
  rintro (⟨hhead, -⟩ | ⟨hhead, -⟩) <;> cases hhead <;> exact Bool.noConfusion hmark

/-- A literal has its value. -/
theorem TextEvaluator.IsStandard.atom_literal (h : evaluator.IsStandard) (l : IntLiteral) :
    evaluator.atom l.text = some (.int64 l.value) := by
  obtain ⟨c, tail, htext, hc⟩ := (ArithFactor.literal l).start
  have htext : l.text = c :: tail := htext
  have hmark := (l.mem_text (htext ▸ List.mem_cons_self : c ∈ l.text)).1
  have hdollar : ¬ (c :: tail).head? = some '$' := by
    rintro ⟨⟩
    have hfrom := fromChars_text l
    rw [htext] at hfrom
    have hnone : fromChars ('$' :: tail) = none := by
      show integerOf false ('$' :: tail) = none
      exact if_neg fun hall ↦ Bool.noConfusion hall.2.1
    rw [hnone] at hfrom
    cases hfrom
  have hfrom := fromChars_text l
  rw [htext] at hfrom ⊢
  rw [TextEvaluator.atom, if_neg (not_quoted hmark), h.constants c tail hc]
  simp only [if_neg hdollar, hfrom]

/-- A variable is looked up. -/
theorem TextEvaluator.IsStandard.atom_var (h : evaluator.IsStandard) (v : ExprVariable) :
    evaluator.atom v.text = evaluator.resolve v.text := by
  show evaluator.atom ('$' :: v.letters) = _
  rw [TextEvaluator.atom, if_neg (not_quoted rfl), h.constants '$' v.letters rfl]
  rfl

/-! ### Texts that end with an operator -/

theorem isMark_of_isSpace (h : isSpace c = true) : isMark c = false := by
  refine Bool.eq_false_iff.mpr fun hmark ↦ ?_
  simp only [isMark, Bool.or_eq_true, decide_eq_true_eq] at hmark
  rcases hmark with ((rfl | rfl) | rfl) | rfl <;> exact absurd h (by decide)

/-- What remains of a text that a `*` ends is such a text. -/
theorem trimAscii_ending_star (before : List Char) :
    ∃ trimmed, trimAscii (before ++ ['*', ' ']) = trimmed ++ ['*'] ∧
      trimAscii (before ++ ['*']) = trimmed ++ ['*'] ∧
      (Scan.run {} before = {} → Scan.run {} trimmed = {}) := by
  have hspace : before ++ ['*', ' '] = before ++ ['*'] ++ [' '] := by simp
  refine ⟨before.dropWhile isSpace, ?_, trimAscii_concat rfl before, fun hrun ↦ ?_⟩
  · rw [hspace, trimAscii_concat_space, trimAscii_concat rfl]
  · induction before with
    | nil => exact hrun
    | cons c before ih =>
      rw [List.dropWhile_cons]
      split
      · next hc =>
        have hnext : Scan.next {} c = {} := Scan.next_plain (isMark_of_isSpace hc)
        rw [Scan.run_cons, hnext] at hrun
        exact ih (by simp) hrun
      · exact hrun

/-- The parts of a text that is split: at an operator, where a scan begins again. -/
theorem findTopLevelArithmetic_eq_some {lhs rhs : List Char} {sign : Char}
    (h : findTopLevelArithmetic text = some (lhs, sign, rhs)) :
    text = lhs ++ sign :: rhs ∧ (isOperator 0 sign = true ∨ isOperator 1 sign = true) ∧
      Scan.run {} lhs = {} ∧ Scan.next {} sign = {} := by
  have hpass : ∀ pass, splitAtTop (wantedOperator pass) {} [] text = some (lhs, sign, rhs) →
      text = lhs ++ sign :: rhs ∧ isOperator pass sign = true ∧ Scan.run {} lhs = {} ∧
        Scan.next {} sign = {} := by
    intro pass hsplit
    obtain ⟨passed, htext, hlhs, htop, hwanted⟩ := splitAtTop_eq_some hsplit
    obtain rfl : lhs = passed := hlhs
    have hsettled : (Scan.run {} lhs).Settled := Scan.Settled.run (fun _ ↦ rfl) lhs
    obtain ⟨hrun, hnext⟩ := Scan.eq_of_atTop hsettled htop
    rw [hrun] at hnext
    rw [wantedOperator, Bool.and_eq_true] at hwanted
    exact ⟨htext, hwanted.1, hrun, hnext⟩
  rcases Option.or_eq_some_iff.mp h with h | ⟨-, h⟩
  · obtain ⟨htext, hop, hscan⟩ := hpass 0 h
    exact ⟨htext, .inl hop, hscan⟩
  · obtain ⟨htext, hop, hscan⟩ := hpass 1 h
    exact ⟨htext, .inr hop, hscan⟩

/-- A text that ends with a `*` has no value: what is evaluated on the right of the operator it is
split at ends with that `*`, or is empty. -/
theorem evaluateText_ending_star (before : List Char) (hrun : Scan.run {} before = {})
    (hexpression : expression = before ++ ['*', ' '] ∨ expression = before ++ ['*']) :
    evaluator.evaluateText fuel expression = none := by
  induction fuel generalizing before expression with
  | zero => rfl
  | succ fuel ih =>
    obtain ⟨trimmed, hwith, hwithout, hrun'⟩ := trimAscii_ending_star before
    have htrim : trimAscii expression = trimmed ++ ['*'] := by
      rcases hexpression with rfl | rfl
      · exact hwith
      · exact hwithout
    have hrun := hrun' hrun
    have hlast : ∀ text : List Char, hasWrappingParentheses (text ++ ['*']) = false := by
      intro text
      refine Bool.eq_false_iff.mpr fun hwraps ↦ ?_
      have hclose := (ends_of_hasWrappingParentheses hwraps).2
      rw [List.getLast?_concat] at hclose
      cases hclose
    have hpi : trimmed ++ ['*'] ≠ ['p', 'i'] := by
      intro hpi
      have hlast := congrArg List.getLast? hpi
      rw [List.getLast?_concat] at hlast
      cases hlast
    have hcall : parseFunctionCall (trimmed ++ ['*']) = none := by
      unfold parseFunctionCall
      split
      · rfl
      · split
        · show (if hasWrappingParentheses ((trimmed ++ ['*']).dropWhile isNameLetter) = true
            then _ else none) = none
          rw [dropWhile_concat rfl, hlast]
          rfl
        · rfl
    have hsplit : ∃ lhs sign rhs,
        findTopLevelArithmetic (trimmed ++ ['*']) = some (lhs, sign, rhs) := by
      have hsome : (splitAtTop (wantedOperator 1) {} [] (trimmed ++ ['*'])).isSome = true := by
        refine splitAtTop_isSome ?_ ?_
        · rw [hrun]
          rfl
        · exact fun before ↦ rfl
      unfold findTopLevelArithmetic
      cases hfirst : splitAtTop (wantedOperator 0) {} [] (trimmed ++ ['*']) with
      | some parts => exact ⟨parts.1, parts.2.1, parts.2.2, rfl⟩
      | none =>
        obtain ⟨parts, hparts⟩ := Option.isSome_iff_exists.mp hsome
        exact ⟨parts.1, parts.2.1, parts.2.2, hparts⟩
    obtain ⟨lhs, sign, rhs, hsplit⟩ := hsplit
    have hrhs : evaluator.evaluateText fuel rhs = none := by
      obtain ⟨htext, -, hlhs, hnext⟩ := findTopLevelArithmetic_eq_some hsplit
      rcases List.eq_nil_or_concat rhs with rfl | ⟨inner, last, rfl⟩
      · cases fuel <;> rfl
      · rw [List.concat_eq_append, ← List.cons_append, ← List.append_assoc] at htext
        obtain ⟨rfl, hlast⟩ := List.append_inj' htext rfl
        cases hlast
        rw [Scan.run_append, hlhs, Scan.run_cons, hnext] at hrun
        exact ih inner hrun (.inr (List.concat_eq_append))
    rw [TextEvaluator.evaluateText]
    simp only [htrim, hlast, hcall, hsplit, hrhs, if_neg hpi]
    have hne : trimmed ++ ['*'] ≠ [] := by simp
    rw [if_neg hne]
    cases evaluator.evaluateText fuel lhs <;> rfl

/-! ### The value of a text -/

variable {env : ExprVariable → ℤ}

theorem ArithProduct.regrouped_of_not_plain {library : NumberLibrary} :
    ∀ p : ArithProduct, ¬ p.Plain → p.regrouped library env = none
  | .single f, h => absurd trivial h
  | .times f rest, h => by
    rw [ArithProduct.regrouped]
    cases hsigned : rest.first.IsSigned with
    | true => rfl
    | false =>
      have hrest :=
        @ArithProduct.regrouped_of_not_plain library rest fun hplain ↦ h ⟨hsigned, hplain⟩
      show (f.regrouped library env).bind _ = none
      cases f.regrouped library env with
      | none => rfl
      | some i =>
        show (rest.regrouped library env).bind _ = none
        rw [hrest]
        rfl

mutual

theorem ArithFactor.evaluate (h : evaluator.IsStandard) : ∀ (f : ArithFactor) (fuel : ℕ)
    (expression : List Char),
    (∀ v ∈ f.variables, evaluator.resolve v.text = some (.int64 (env v))) →
      trimAscii expression = f.text → f.text.length < fuel →
        evaluator.evaluateText fuel expression =
          (f.regrouped evaluator.library env).map .int64
  | f, 0, _, _, _, hfuel => absurd hfuel (Nat.not_lt_zero _)
  | .literal l, fuel + 1, expression, _, htrim, _ => by
    obtain ⟨c, tail, htext, hc⟩ := (ArithFactor.literal l).start
    have hsplit := (ArithFactor.literal l).findTopLevelArithmetic
    have htext' : l.text = c :: tail := htext
    have hmark := (l.mem_text (htext' ▸ List.mem_cons_self : c ∈ l.text)).1
    have hatom := h.atom_literal l
    rw [htext'] at hatom
    rw [htext] at htrim hsplit
    rw [evaluateText_of_atom htrim (isNameStart_of_isStart hc) (not_wrapping_of_head hmark tail) hsplit]
    exact hatom
  | .var v, fuel + 1, expression, hvariables, htrim, _ => by
    have hsplit := (ArithFactor.var v).findTopLevelArithmetic
    rw [evaluateText_of_atom htrim rfl (not_wrapping_of_head rfl v.letters) hsplit]
    exact (h.atom_var v).trans (hvariables v (List.mem_singleton_self v))
  | .paren e, fuel + 1, expression, hvariables, htrim, hfuel => by
    have hwraps := Level.hasWrappingParentheses_pair e.level_tight.1
    rw [evaluateText_of_wrapping htrim hwraps]
    show evaluator.evaluateText fuel (e.text ++ [')']).dropLast = _
    rw [List.dropLast_concat]
    refine e.evaluate h fuel e.text hvariables e.level_tight.2.trim ?_
    simp only [ArithFactor.text, List.length_cons, List.length_append] at hfuel
    omega

theorem ArithProduct.evaluate (h : evaluator.IsStandard) : ∀ (p : ArithProduct) (fuel : ℕ)
    (expression : List Char),
    (∀ v ∈ p.variables, evaluator.resolve v.text = some (.int64 (env v))) →
      trimAscii expression = p.text → p.text.length < fuel →
        evaluator.evaluateText fuel expression =
          (p.regrouped evaluator.library env).map .int64
  | .single f, fuel, expression, hvariables, htrim, hfuel =>
    f.evaluate h fuel expression hvariables htrim hfuel
  | .times f rest, 0, _, _, _, hfuel => absurd hfuel (Nat.not_lt_zero _)
  | .times f rest, fuel + 1, expression, hvariables, htrim, hfuel => by
    obtain ⟨c, tail, htext, hc⟩ := f.start
    have hstart : (ArithProduct.times f rest).text =
        c :: (tail ++ ' ' :: '*' :: ' ' :: rest.text) := by
      show f.text ++ _ = _
      rw [htext]
      rfl
    have hwraps := f.not_wrapping (List.cons_ne_nil ' ' ('*' :: ' ' :: rest.text))
    change hasWrappingParentheses (ArithProduct.times f rest).text = false at hwraps
    by_cases hplain : (ArithProduct.times f rest).Plain
    · have hsplit := hplain.findTopLevelArithmetic
      simp only [ArithProduct.text, List.length_append, List.length_cons] at hfuel
      have hlhs := f.evaluate h fuel (f.text ++ [' '])
        (fun v hv ↦ hvariables v (List.mem_append_left _ hv))
        ((trimAscii_concat_space _).trans f.level_tight.2.trim) (by omega)
      have hrhs := rest.evaluate h fuel (' ' :: rest.text)
        (fun v hv ↦ hvariables v (List.mem_append_right _ hv))
        ((trimAscii_cons_space _).trans rest.level_tight.2.trim) (by omega)
      rw [hstart] at hwraps hsplit htrim
      rw [evaluateText_of_split htrim (isNameStart_of_isStart hc) hwraps hsplit, hlhs, hrhs,
        h.arithmetic (by decide)]
      rw [ArithProduct.regrouped, hplain.1]
      rfl
    · -- the split is at the sign of a literal, and nothing follows the `*` before it
      obtain ⟨lhs, rhs, hlevel, hstop⟩ := ArithProduct.stopped hplain [] .nil fun _ ↦ rfl
      rw [List.append_nil] at hstop
      have hsplit : findTopLevelArithmetic (ArithProduct.times f rest).text =
          some (lhs ++ ['*', ' '], '-', rhs) := by
        rw [findTopLevelArithmetic, hstop]
        rfl
      rw [hstart] at hwraps hsplit htrim
      rw [evaluateText_of_split htrim (isNameStart_of_isStart hc) hwraps hsplit,
        evaluateText_ending_star lhs hlevel.run (.inl rfl),
        ArithProduct.regrouped_of_not_plain _ hplain]
      rfl

theorem ArithExpr.evaluate (h : evaluator.IsStandard) : ∀ (e : ArithExpr) (fuel : ℕ)
    (expression : List Char),
    (∀ v ∈ e.variables, evaluator.resolve v.text = some (.int64 (env v))) →
      trimAscii expression = e.text → e.text.length < fuel →
        evaluator.evaluateText fuel expression =
          (e.regrouped evaluator.library env).map .int64
  | .single p, fuel, expression, hvariables, htrim, hfuel =>
    p.evaluate h fuel expression hvariables htrim hfuel
  | .step p op rest, 0, _, _, _, hfuel => absurd hfuel (Nat.not_lt_zero _)
  | .step p op rest, fuel + 1, expression, hvariables, htrim, hfuel => by
    obtain ⟨own, hown⟩ := p.exists_text
    obtain ⟨c, tail, htext, hc⟩ := p.first.start
    have hstart : (ArithExpr.step p op rest).text =
        c :: (tail ++ own ++ ' ' :: op.sign :: ' ' :: rest.text) := by
      show p.text ++ _ = _
      rw [hown, htext]
      rfl
    have hwraps := p.not_wrapping (List.cons_ne_nil ' ' (op.sign :: ' ' :: rest.text))
    change hasWrappingParentheses (ArithExpr.step p op rest).text = false at hwraps
    by_cases hplain : p.Plain
    · have hsplit := hplain.findTopLevelArithmetic_step op rest
      simp only [ArithExpr.text, List.length_append, List.length_cons] at hfuel
      have hlhs := p.evaluate h fuel (p.text ++ [' '])
        (fun v hv ↦ hvariables v (List.mem_append_left _ hv))
        ((trimAscii_concat_space _).trans p.level_tight.2.trim) (by omega)
      have hrhs := rest.evaluate h fuel (' ' :: rest.text)
        (fun v hv ↦ hvariables v (List.mem_append_right _ hv))
        ((trimAscii_cons_space _).trans rest.level_tight.2.trim) (by omega)
      have hsign : op.sign ≠ '/' := by cases op <;> decide
      rw [hstart] at hwraps hsplit htrim
      rw [evaluateText_of_split htrim (isNameStart_of_isStart hc) hwraps hsplit, hlhs, hrhs,
        h.arithmetic hsign]
      rfl
    · obtain ⟨lhs, rhs, hlevel, hstop⟩ :=
        ArithProduct.stopped hplain (' ' :: op.sign :: ' ' :: rest.text) .nil fun _ ↦ rfl
      have hsplit : findTopLevelArithmetic (ArithExpr.step p op rest).text =
          some (lhs ++ ['*', ' '], '-', rhs) := by
        show (splitAtTop _ _ _ (p.text ++ ' ' :: op.sign :: ' ' :: rest.text)).or _ = _
        rw [hstop]
        rfl
      rw [hstart] at hwraps hsplit htrim
      rw [evaluateText_of_split htrim (isNameStart_of_isStart hc) hwraps hsplit,
        evaluateText_ending_star lhs hlevel.run (.inl rfl), ArithExpr.regrouped,
        ArithProduct.regrouped_of_not_plain _ hplain]
      rfl

end

end Evaluation

end RulesForge
