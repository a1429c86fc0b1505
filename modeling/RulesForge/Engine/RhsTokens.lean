import RulesForge.Engine.RhsReading

/-!
# Texts that are read as their tokens

Which expressions the executor reads as the parser has read them. For expressions whose strings are
clean, a value is read as its tokens if and only if its operators are `+`, `-`, `*` and `/` and no
sign follows a `*` or `/` (`RhsExpr.valueTokens_iff`). A condition is such a value, or a comparison
of two (`RhsExpr.conditionTokens_iff`): the evaluator splits a condition at its first comparison,
so a comparison in parentheses leaves half of them on either side.
-/

namespace RulesForge

/-! ### The tokens of a reading -/

def arithmeticSymbols : List (List Char) :=
  [['('], [')'], [','], ['+'], ['-'], ['*'], ['/']]

/-- A token that the reading of a text may have. -/
def TextToken.Known : TextToken → Prop
  | .symbol text => text ∈ arithmeticSymbols
  | _ => True

/-- How many parentheses are opened and not closed. -/
def openings (tokens : List TextToken) : ℤ :=
  (tokens.map fun t ↦ if t = .symbol ['('] then 1 else if t = .symbol [')'] then -1 else 0).sum

@[simp]
theorem openings_append (tokens tokens' : List TextToken) :
    openings (tokens ++ tokens') = openings tokens + openings tokens' := by
  rw [openings, List.map_append, List.sum_append]
  rfl

theorem openings_cons (t : TextToken) (tokens : List TextToken) :
    openings (t :: tokens) = openings [t] + openings tokens :=
  openings_append [t] tokens

section Joining

variable {separator t : TextToken} {parts : List (List TextToken)} {part : List TextToken}

theorem joinTokens_cons_of_ne_nil (hne : parts ≠ []) :
    joinTokens separator (part :: parts) = part ++ separator :: joinTokens separator parts := by
  cases parts with
  | nil => exact absurd rfl hne
  | cons part' parts =>
    rw [joinTokens]
    exact List.cons_ne_nil part' parts

/-- What holds of the parts and of the separator with what follows it holds of the whole. -/
theorem joinTokens_induction {P : List TextToken → Prop} (hnil : P [])
    (hjoin : ∀ tokens tokens', P tokens → P tokens' → P (tokens ++ separator :: tokens'))
    (hparts : ∀ part ∈ parts, P part) : P (joinTokens separator parts) := by
  induction parts with
  | nil => exact hnil
  | cons part parts ih =>
    obtain ⟨hpart, hparts⟩ := List.forall_mem_cons.mp hparts
    by_cases hne : parts = []
    · rw [hne]
      exact hpart
    · rw [joinTokens_cons_of_ne_nil hne]
      exact hjoin part _ hpart (ih hparts)

theorem mem_joinTokens (hpart : part ∈ parts) (ht : t ∈ part) : t ∈ joinTokens separator parts := by
  induction parts with
  | nil => contradiction
  | cons part' parts ih =>
    by_cases hne : parts = []
    · rw [hne] at hpart ⊢
      rwa [List.mem_singleton.mp hpart] at ht
    · rw [joinTokens_cons_of_ne_nil hne, List.mem_append, List.mem_cons]
      rcases List.mem_cons.mp hpart with rfl | hpart
      · exact .inl ht
      · exact .inr (.inr (ih hpart))

end Joining

theorem isOperator_cases {c : Char} (h : isOperator 0 c = true ∨ isOperator 1 c = true) :
    c = '+' ∨ c = '-' ∨ c = '*' ∨ c = '/' := by
  simpa [isOperator, or_assoc] using h

/-- **What holds of every reading** holds of atoms and of what is put together from readings. -/
theorem readText_induction {P : List TextToken → Prop} (hnil : P [])
    (hatom : ∀ text, P [atomToken text])
    (hparen : ∀ tokens, P tokens → P (parenthesised tokens))
    (hcall : ∀ name tokens, P tokens → P (.word name :: parenthesised tokens))
    (hsplit : ∀ c tokens tokens', c = ',' ∨ c = '+' ∨ c = '-' ∨ c = '*' ∨ c = '/' →
      P tokens → P tokens' → P (tokens ++ .symbol [c] :: tokens'))
    (fuel : ℕ) (expression : List Char) : P (readText fuel expression).tokens := by
  induction fuel generalizing expression with
  | zero => exact hnil
  | succ fuel ih =>
    rw [readText]
    split
    · exact hnil
    split
    · exact hparen _ (ih _)
    split
    · exact hatom _
    split
    · rename_i name args _
      refine hcall _ _ (joinTokens_induction hnil (fun _ _ ↦ hsplit ',' _ _ (.inl rfl)) ?_)
      rw [TextReading.tokensOf_eq_map, List.map_map]
      intro part hpart
      obtain ⟨arg, -, rfl⟩ := List.mem_map.mp hpart
      exact ih arg
    · split
      · rename_i hfind
        have hop := isOperator_cases (findTopLevelArithmetic_eq_some hfind).2.1
        exact hsplit _ _ _ (.inr hop) (ih _) (ih _)
      · exact hatom _

/-- The symbols of a reading are those of arithmetic. -/
theorem readText_known (fuel : ℕ) (expression : List Char) :
    ∀ t ∈ (readText fuel expression).tokens, t.Known := by
  have hparen : ∀ tokens : List TextToken, (∀ t ∈ tokens, t.Known) →
      ∀ t ∈ parenthesised tokens, t.Known := by
    intro tokens htokens
    refine List.forall_mem_cons.mpr ⟨List.mem_cons_self, List.forall_mem_append.mpr ⟨htokens, ?_⟩⟩
    exact List.forall_mem_singleton.mpr (show [')'] ∈ arithmeticSymbols by decide)
  refine @readText_induction (fun tokens ↦ ∀ t ∈ tokens, t.Known) nofun (fun text ↦ ?_) hparen
    (fun name tokens htokens ↦ List.forall_mem_cons.mpr ⟨trivial, hparen tokens htokens⟩)
    (fun c tokens tokens' hc htokens htokens' ↦ ?_) fuel expression
  · refine List.forall_mem_singleton.mpr ?_
    unfold atomToken
    split <;> exact trivial
  · refine List.forall_mem_append.mpr ⟨htokens, List.forall_mem_cons.mpr ⟨?_, htokens'⟩⟩
    show [c] ∈ arithmeticSymbols
    rcases hc with rfl | rfl | rfl | rfl | rfl <;> decide

theorem openings_parenthesised (tokens : List TextToken) :
    openings (parenthesised tokens) = openings tokens := by
  have hopen : openings [.symbol ['(']] = 1 := rfl
  have hclose : openings [.symbol [')']] = -1 := rfl
  rw [parenthesised, openings_cons, openings_append, hopen, hclose]
  omega

/-- In a reading every parenthesis that is opened is closed. -/
theorem readText_openings (fuel : ℕ) (expression : List Char) :
    openings (readText fuel expression).tokens = 0 := by
  refine @readText_induction (openings · = 0) rfl (fun text ↦ ?_)
    (fun tokens htokens ↦ (openings_parenthesised tokens).trans htokens)
    (fun name tokens htokens ↦ ?_) (fun c tokens tokens' hc htokens htokens' ↦ ?_) fuel expression
  · unfold atomToken
    split <;> rfl
  · have hword : openings [.word name] = 0 := rfl
    rw [openings_cons, hword, openings_parenthesised, htokens]
    rfl
  · have hsymbol : openings [.symbol [c]] = 0 := by
      rcases hc with rfl | rfl | rfl | rfl | rfl <;> rfl
    rw [openings_append, openings_cons, hsymbol, htokens, htokens']
    rfl

/-! ### The tokens of an expression -/

/-- Every parenthesis is closed, and none before it is opened. -/
structure Balanced (tokens : List TextToken) : Prop where
  openings_eq : openings tokens = 0
  openings_nonneg : ∀ before after, tokens = before ++ after → 0 ≤ openings before

namespace Balanced

variable {tokens tokens' before after : List TextToken} {t : TextToken}

theorem nil : Balanced [] where
  openings_eq := rfl
  openings_nonneg before after h := by
    rw [(List.append_eq_nil_iff.mp h.symm).1]
    rfl

theorem append (h : Balanced tokens) (h' : Balanced tokens') : Balanced (tokens ++ tokens') where
  openings_eq := by rw [openings_append, h.openings_eq, h'.openings_eq]; rfl
  openings_nonneg before after heq := by
    rcases List.append_eq_append_iff.mp heq with ⟨l, rfl, hl⟩ | ⟨l, hl, -⟩
    · rw [openings_append, h.openings_eq, zero_add]
      exact h'.openings_nonneg l after hl
    · exact h.openings_nonneg before l hl

theorem cons (h : Balanced tokens) (ht : t ≠ .symbol ['('] ∧ t ≠ .symbol [')']) :
    Balanced (t :: tokens) := by
  have hzero : openings [t] = 0 := by
    rw [openings, List.map_singleton, if_neg ht.1, if_neg ht.2, List.sum_singleton]
  have hsingle : Balanced [t] := by
    refine ⟨hzero, fun before after heq ↦ ?_⟩
    cases before with
    | nil => exact le_rfl
    | cons t' before =>
      obtain ⟨rfl, hnil⟩ := List.cons.inj heq
      rw [(List.append_eq_nil_iff.mp hnil.symm).1, hzero]
  exact hsingle.append h

/-- In front of a token between parentheses one is open. -/
theorem openings_pos (h : Balanced tokens) (heq : parenthesised tokens = before ++ t :: after)
    (ht : t ≠ .symbol ['('] ∧ t ≠ .symbol [')']) : 0 < openings before := by
  cases before with
  | nil => exact absurd (List.cons.inj heq).1.symm ht.1
  | cons t' before =>
    obtain ⟨ht', hrest⟩ := List.cons.inj heq
    have hopen : openings [.symbol ['(']] = 1 := rfl
    have hnonneg : 0 ≤ openings before := by
      rcases List.append_eq_append_iff.mp hrest with ⟨l, hbefore, hl⟩ | ⟨l, hl, -⟩
      · -- the token would be the parenthesis that closes
        cases l with
        | nil => exact absurd (List.cons.inj hl).1.symm ht.2
        | cons t'' l => exact absurd (List.cons.inj hl).2 (by simp)
      · exact h.openings_nonneg before l hl
    rw [← ht', openings_cons, hopen]
    omega

theorem parenthesised (h : Balanced tokens) : Balanced (parenthesised tokens) where
  openings_eq := (openings_parenthesised tokens).trans h.openings_eq
  openings_nonneg before after heq := by
    cases before with
    | nil => exact le_rfl
    | cons t before =>
      obtain ⟨ht, hrest⟩ := List.cons.inj heq
      have hopen : openings [.symbol ['(']] = 1 := rfl
      have hge : -1 ≤ openings before := by
        rcases List.append_eq_append_iff.mp hrest with ⟨l, rfl, hl⟩ | ⟨l, hl, -⟩
        · rw [openings_append, h.openings_eq, zero_add]
          cases l with
          | nil => decide
          | cons t' l =>
            obtain ⟨ht', hnil⟩ := List.cons.inj hl
            rw [← ht', (List.append_eq_nil_iff.mp hnil.symm).1]
            decide
        · have hnonneg := h.openings_nonneg before l hl
          omega
      rw [← ht, openings_cons, hopen]
      omega

end Balanced

/-- An operator as the parser reads it, with operands of lower levels. -/
def RhsExpr.Parsed : RhsExpr → Prop
  | .binary op lhs rhs => op = symbolToken op.type ∧ op.type ∈ binaryLevels.flatten ∧
      lhs.rank ≤ operatorRank op.type ∧ rhs.rank < operatorRank op.type
  | _ => True

variable {type : RhsTokenType}

theorem symbolText_isSome_of_mem (h : type ∈ binaryLevels.flatten) :
    (RhsLexer.symbolText type).isSome = true := by
  revert type
  decide

mutual

theorem RhsExpr.parsed : ∀ (expr : RhsExpr), expr.Typed →
    (∀ t ∈ expr.tokens, RhsLexer.WellFormed t) → expr.Each Parsed
  | .ternary condition trueExpr falseExpr, ⟨htyped, htrue, hfalse⟩, hwf => by
    have hwf' : ∀ t ∈ condition.tokens ++ symbolToken .question ::
      (trueExpr.tokens ++ symbolToken .colon :: falseExpr.tokens), RhsLexer.WellFormed t := hwf
    rw [List.forall_mem_append, List.forall_mem_cons, List.forall_mem_append,
      List.forall_mem_cons] at hwf'
    obtain ⟨hcondition, -, htrue', -, hfalse'⟩ := hwf'
    exact ⟨trivial, RhsExpr.parsed condition htyped hcondition,
      RhsExpr.parsed trueExpr htrue htrue', RhsExpr.parsed falseExpr hfalse hfalse'⟩
  | .binary op lhs rhs, ⟨⟨hmem, hranks⟩, htyped, htyped'⟩, hwf => by
    have hwf' : ∀ t ∈ lhs.tokens ++ op :: rhs.tokens, RhsLexer.WellFormed t := hwf
    rw [List.forall_mem_append, List.forall_mem_cons] at hwf'
    obtain ⟨hlhs, hop, hrhs⟩ := hwf'
    obtain ⟨text, htext⟩ := Option.isSome_iff_exists.mp (symbolText_isSome_of_mem hmem)
    exact ⟨⟨eq_symbolToken hop htext rfl, hmem, hranks⟩, RhsExpr.parsed lhs htyped hlhs,
      RhsExpr.parsed rhs htyped' hrhs⟩
  | .paren expr, htyped, hwf => ⟨trivial, RhsExpr.parsed expr htyped fun t ht ↦
      hwf t (List.mem_cons_of_mem _ (List.mem_append_left _ ht))⟩
  | .path _ _, _, _ => trivial
  | .number _, _, _ => trivial
  | .call _ args, htyped, hwf => ⟨trivial, RhsExpr.parsedOf args htyped fun t ht ↦
      hwf t (List.mem_cons_of_mem _ (List.mem_cons_of_mem _ (List.mem_append_left _ ht)))⟩
  | .string _, _, _ => trivial

theorem RhsExpr.parsedOf : ∀ (args : List RhsExpr), AllTyped args →
    (∀ t ∈ argTokens args, RhsLexer.WellFormed t) → EachOf Parsed args
  | [], _, _ => trivial
  | arg :: args, ⟨htyped, hall⟩, hwf =>
    ⟨RhsExpr.parsed arg htyped fun t ht ↦ hwf t (mem_argTokens_cons (.inl ht)),
      RhsExpr.parsedOf args hall fun t ht ↦ hwf t (mem_argTokens_cons (.inr ht))⟩

end

theorem mem_callTokens {name : List Char} {args : List (List TextToken)} {arg : List TextToken}
    {t : TextToken} (harg : arg ∈ args) (ht : t ∈ arg) : t ∈ callTokens name args := by
  have hjoin : ∀ separator, t ∈ parenthesised (joinTokens separator args) := fun separator ↦
    List.mem_cons_of_mem _ (List.mem_append_left _ (mem_joinTokens harg ht))
  unfold callTokens
  split
  · exact hjoin _
  · exact List.mem_cons_of_mem _ (hjoin _)

/-- An operator whose symbol a reading may have. -/
theorem arithmetic_of_known (hmem : type ∈ binaryLevels.flatten)
    (h : (TextToken.symbol (symbolToken type).text).Known) :
    isAdditive type = true ∨ isMultiplicative type = true := by
  have hall : ∀ type ∈ binaryLevels.flatten, (symbolToken type).text ∈ arithmeticSymbols →
      isAdditive type = true ∨ isMultiplicative type = true := by decide
  exact hall type hmem h

mutual

/-- **An expression with the symbols of a reading** is arithmetic. -/
theorem RhsExpr.arithmetic_of_known : ∀ (expr : RhsExpr), expr.Each Parsed →
    (∀ t ∈ expr.storedTokens, t.Known) → expr.Each Arithmetic
  | .ternary condition trueExpr falseExpr, _, hknown => by
    have hquestion : (TextToken.symbol ['?']).Known := hknown _ <| by
      rw [storedTokens]
      exact List.mem_append_right _ List.mem_cons_self
    exact absurd hquestion (by decide : ['?'] ∉ arithmeticSymbols)
  | .binary op lhs rhs, ⟨⟨hop, hmem, _⟩, hlhs, hrhs⟩, hknown => by
    have hknown' : ∀ t ∈ lhs.storedTokens ++ .symbol op.text :: rhs.storedTokens, t.Known := hknown
    rw [List.forall_mem_append, List.forall_mem_cons] at hknown'
    obtain ⟨hknownLhs, hknownOp, hknownRhs⟩ := hknown'
    rw [hop] at hknownOp
    exact ⟨RulesForge.arithmetic_of_known hmem hknownOp,
      RhsExpr.arithmetic_of_known lhs hlhs hknownLhs,
      RhsExpr.arithmetic_of_known rhs hrhs hknownRhs⟩
  | .paren expr, ⟨_, hexpr⟩, hknown => ⟨trivial, RhsExpr.arithmetic_of_known expr hexpr fun t ht ↦
      hknown t (List.mem_cons_of_mem _ (List.mem_append_left _ ht))⟩
  | .path _ _, _, _ => trivial
  | .number _, _, _ => trivial
  | .call _ args, ⟨_, hargs⟩, hknown => ⟨trivial, RhsExpr.arithmetic_of_knownOf args hargs
      fun _ hpart t ht ↦ hknown t (mem_callTokens hpart ht)⟩
  | .string _, _, _ => trivial

theorem RhsExpr.arithmetic_of_knownOf : ∀ (args : List RhsExpr), EachOf Parsed args →
    (∀ part ∈ storedTokensOf args, ∀ t ∈ part, t.Known) → EachOf Arithmetic args
  | [], _, _ => trivial
  | arg :: args, ⟨harg, hargs⟩, hknown =>
    ⟨RhsExpr.arithmetic_of_known arg harg (hknown _ List.mem_cons_self),
      RhsExpr.arithmetic_of_knownOf args hargs fun part hpart ↦
        hknown part (List.mem_cons_of_mem _ hpart)⟩

end

/-- No operator is a parenthesis. -/
theorem ne_paren_of_mem (hmem : type ∈ binaryLevels.flatten) :
    TextToken.symbol (symbolToken type).text ≠ .symbol ['('] ∧
      TextToken.symbol (symbolToken type).text ≠ .symbol [')'] := by
  revert type
  decide

theorem Balanced.join {separator : TextToken}
    (hseparator : separator ≠ .symbol ['('] ∧ separator ≠ .symbol [')'])
    {parts : List (List TextToken)} (h : ∀ part ∈ parts, Balanced part) :
    Balanced (joinTokens separator parts) :=
  joinTokens_induction .nil (fun _ _ hl hr ↦ hl.append (hr.cons hseparator)) h

theorem Balanced.call {name : List Char} {parts : List (List TextToken)}
    (h : ∀ part ∈ parts, Balanced part) : Balanced (callTokens name parts) := by
  unfold callTokens
  split
  · exact (Balanced.join (by decide) h).parenthesised
  · exact (Balanced.join (by decide) h).parenthesised.cons ⟨nofun, nofun⟩

mutual

theorem RhsExpr.balanced : ∀ (expr : RhsExpr), expr.Each Parsed → Balanced expr.storedTokens
  | .ternary condition trueExpr falseExpr, ⟨_, hcondition, htrue, hfalse⟩ =>
    (RhsExpr.balanced condition hcondition).parenthesised.append
      (((RhsExpr.balanced trueExpr htrue).parenthesised.append
        ((RhsExpr.balanced falseExpr hfalse).parenthesised.cons (by decide))).cons (by decide))
  | .binary op lhs rhs, ⟨⟨hop, hmem, _⟩, hlhs, hrhs⟩ => by
    have hparen := ne_paren_of_mem hmem
    rw [← hop] at hparen
    exact (RhsExpr.balanced lhs hlhs).append ((RhsExpr.balanced rhs hrhs).cons hparen)
  | .paren expr, ⟨_, hexpr⟩ => (RhsExpr.balanced expr hexpr).parenthesised
  | .path _ _, _ => Balanced.nil.cons ⟨nofun, nofun⟩
  | .number _, _ => Balanced.nil.cons ⟨nofun, nofun⟩
  | .call _ args, ⟨_, hargs⟩ => Balanced.call (RhsExpr.balancedOf args hargs)
  | .string _, _ => Balanced.nil.cons ⟨nofun, nofun⟩

theorem RhsExpr.balancedOf : ∀ (args : List RhsExpr), EachOf Parsed args →
    ∀ part ∈ storedTokensOf args, Balanced part
  | [], _, _, hpart => absurd hpart List.not_mem_nil
  | arg :: args, ⟨harg, hargs⟩, part, hpart => by
    rcases List.mem_cons.mp hpart with rfl | hpart
    · exact RhsExpr.balanced arg harg
    · exact RhsExpr.balancedOf args hargs part hpart

end

/-! ### Values -/

/-- An expression that is read as its tokens: its operators are `+`, `-`, `*` and `/`, and no sign
follows a `*` or `/`. -/
def RhsExpr.Faithful (expr : RhsExpr) : Prop :=
  expr.Each Arithmetic ∧ expr.Each Steady

theorem valueTokens_agree {expr : RhsExpr} (h : expr.Each RhsExpr.Readable)
    {expression : List Char} (htrim : trimAscii expression = expr.text)
    (hlength : expr.text.length ≤ expression.length) :
    AgreeIff (expr.Each RhsExpr.Steady) (valueTokens expression) expr.storedTokens :=
  (reads _).1.expr h htrim (Nat.lt_succ_of_le hlength)

/-- **When a value is read as its tokens**, if its strings are clean. -/
theorem RhsExpr.valueTokens_iff {expr : RhsExpr} (htyped : expr.Typed)
    (hwf : ∀ t ∈ expr.tokens, RhsLexer.WellFormed t) (hclean : expr.Each Clean) :
    valueTokens expr.text = expr.storedTokens ↔ expr.Faithful := by
  have hsteady : expr.Each Arithmetic →
      (valueTokens expr.text = expr.storedTokens ↔ expr.Each Steady) := by
    intro harithmetic
    have hreadable := expr.readable harithmetic hclean htyped hwf
    exact (valueTokens_agree hreadable (expr.level_tight hreadable).2.trim le_rfl).eq_iff
  refine ⟨fun h ↦ ?_, fun h ↦ (hsteady h.1).mpr h.2⟩
  have harithmetic := expr.arithmetic_of_known (expr.parsed htyped hwf) (by
    rw [← h]
    exact readText_known _ _)
  exact ⟨harithmetic, (hsteady harithmetic).mp h⟩

/-! ### Conditions -/

/-- A text without a comparison operator outside of its strings. -/
inductive Uncompared : List Char → Prop
  | nil : Uncompared []
  | letter {c : Char} {text : List Char} : isPassed c = true → Uncompared text →
      Uncompared (c :: text)
  | quoted {body text : List Char} : (∀ c ∈ body, c ≠ '"' ∧ c ≠ '\\') → Uncompared text →
      Uncompared ('"' :: body ++ '"' :: text)

namespace Uncompared

variable {text text' rest before : List Char} {depth : ℤ}

theorem of_passed (h : ∀ c ∈ text, isPassed c = true) : Uncompared text := by
  induction text with
  | nil => exact .nil
  | cons c text ih =>
    obtain ⟨hc, htext⟩ := List.forall_mem_cons.mp h
    exact .letter hc (ih htext)

theorem append (h : Uncompared text) (h' : Uncompared text') : Uncompared (text ++ text') := by
  induction h with
  | nil => exact h'
  | letter hc _ ih => exact .letter hc ih
  | quoted hbody _ ih =>
    rw [List.append_assoc]
    exact .quoted hbody ih

theorem head_ne (h : Uncompared text) (hrest : rest.head? ≠ some '=') :
    (text ++ rest).head? ≠ some '=' := by
  cases h with
  | nil => exact hrest
  | letter hc _ =>
    rintro ⟨⟩
    exact Bool.noConfusion hc
  | quoted _ _ =>
    rintro ⟨⟩

/-- Such a text is passed. -/
theorem findTopLevelCompare (h : Uncompared text) (hrest : rest.head? ≠ some '=') :
    RulesForge.findTopLevelCompare (.atDepth depth) before (text ++ rest) =
      RulesForge.findTopLevelCompare ((Scan.atDepth depth).run text) (before ++ text) rest := by
  induction h generalizing before depth with
  | nil => rw [List.append_nil]; rfl
  | @letter c text hc htext ih =>
    have hnext : ∃ depth', (Scan.atDepth depth).next c = .atDepth depth' := by
      by_cases hmark : isMark c = true
      · simp only [isPassed, Bool.and_eq_true, Bool.not_eq_true'] at hc
        simp only [isMark, Bool.or_eq_true, decide_eq_true_eq] at hmark
        rcases hmark with ((rfl | rfl) | rfl) | rfl
        · exact absurd hc.2 (by decide)
        · exact absurd hc.2 (by decide)
        · exact ⟨_, Scan.next_open⟩
        · exact ⟨_, Scan.next_close⟩
      · exact ⟨depth, Scan.next_plain (Bool.eq_false_iff.mpr hmark)⟩
    obtain ⟨depth', hdepth⟩ := hnext
    rw [List.cons_append, findTopLevelCompare_cons_of_none
      (compareToken_of_isPassed hc (htext.head_ne hrest)), hdepth, ih, Scan.run_cons, hdepth,
      List.append_assoc]
    rfl
  | @quoted body text hbody _ ih =>
    have hopen : RulesForge.findTopLevelCompare (.atDepth depth) before
        ('"' :: (body ++ '"' :: (text ++ rest))) = RulesForge.findTopLevelCompare
          { quote := some '"', depth := depth } (before ++ ['"']) (body ++ '"' :: (text ++ rest)) :=
      rfl
    have hrun : (Scan.atDepth depth).run ('"' :: body ++ '"' :: text) =
        (Scan.atDepth depth).run text := by
      have hlevel : Level ('"' :: body ++ ['"']) := .quoted hbody .nil
      have hshape : '"' :: body ++ '"' :: text = '"' :: body ++ ['"'] ++ text := by simp
      rw [hshape, Scan.run_append, hlevel.run]
    have hbody' := @findTopLevelCompare_body (before ++ ['"']) (text ++ rest) depth body hbody
    rw [hrun]
    have hall := hopen.trans (hbody'.trans ih)
    simpa using hall

theorem parenthesised (h : Uncompared text) : Uncompared ('(' :: text ++ [')']) := by
  have hall : Uncompared (text ++ [')']) := h.append (.of_passed (forall_mem_of_all rfl))
  exact @letter '(' _ rfl hall

theorem intercalate {separator : List Char} (hseparator : ∀ c ∈ separator, isPassed c = true)
    {texts : List (List Char)} (h : ∀ text ∈ texts, Uncompared text) :
    Uncompared (separator.intercalate texts) := by
  induction texts with
  | nil => exact .nil
  | cons text texts ih =>
    obtain ⟨htext, htexts⟩ := List.forall_mem_cons.mp h
    cases texts with
    | nil =>
      rw [List.intercalate_singleton]
      exact htext
    | cons text' texts =>
      rw [List.intercalate_cons_cons]
      exact (htext.append (.of_passed hseparator)).append (ih htexts)

end Uncompared

theorem IsWordText.uncompared {text : List Char} (h : IsWordText text) : Uncompared text :=
  .of_passed fun c hc ↦ (isWordLetter_plain (h.letters c hc)).2.2.2.2

mutual

/-- No comparison operator stands in the text of a readable expression. -/
theorem RhsExpr.uncompared : ∀ (expr : RhsExpr), expr.Each Readable → Uncompared expr.text
  | .ternary _ _ _, ⟨h, _⟩ => h.elim
  | .binary op lhs rhs, ⟨⟨c, hop, hc⟩, hlhs, hrhs⟩ => by
    have hpassed : isPassed c = true := by
      rcases hc with hc | hc <;> exact (isOperator_plain hc).2.2.2
    rw [RhsExpr.text, hop, List.append_assoc]
    have hbehind : Uncompared (' ' :: c :: ' ' :: rhs.text) :=
      .letter rfl (.letter hpassed (.letter rfl (RhsExpr.uncompared rhs hrhs)))
    exact (RhsExpr.uncompared lhs hlhs).append hbehind
  | .paren expr, ⟨_, hexpr⟩ => by
    rw [RhsExpr.text]
    exact (RhsExpr.uncompared expr hexpr).parenthesised
  | .path _ _, hword => IsWordText.uncompared hword
  | .number token, htoken => by
    rw [RhsExpr.text]
    rcases htoken with hword | ⟨digits, htext, hword⟩
    · exact hword.uncompared
    · rw [htext]
      exact .letter rfl hword.uncompared
  | .call name args, ⟨hname, hargs⟩ => by
    have hall := RhsExpr.uncomparedOf args hargs
    rw [RhsExpr.text]
    unfold callText
    split
    · exact (Uncompared.intercalate (forall_mem_of_all rfl) hall).parenthesised
    · rw [List.append_assoc]
      exact hname.stored.word.uncompared.append
        (Uncompared.intercalate (forall_mem_of_all rfl) hall).parenthesised
  | .string letters, hletters => by
    rw [RhsExpr.text]
    exact .quoted hletters .nil

theorem RhsExpr.uncomparedOf : ∀ (args : List RhsExpr), EachOf Readable args →
    ∀ text ∈ RhsExpr.texts args, Uncompared text
  | [], _, _, htext => absurd htext List.not_mem_nil
  | arg :: args, ⟨harg, hargs⟩, text, htext => by
    rcases List.mem_cons.mp htext with rfl | htext
    · exact RhsExpr.uncompared arg harg
    · exact RhsExpr.uncomparedOf args hargs text htext

end

/-- The comparison operators of the parser. -/
def isCompare (type : RhsTokenType) : Bool :=
  type = .gt || type = .lt || type = .ge || type = .le || type = .eq || type = .ne

theorem exists_compareSymbol (h : isCompare type = true) :
    ∃ op : {op : CompareOp // op.IsComparison}, (symbolToken type).text = compareSymbol op := by
  simp only [isCompare, Bool.or_eq_true, decide_eq_true_eq] at h
  rcases h with ((((rfl | rfl) | rfl) | rfl) | rfl) | rfl
  · exact ⟨⟨.gt, trivial⟩, rfl⟩
  · exact ⟨⟨.lt, trivial⟩, rfl⟩
  · exact ⟨⟨.ge, trivial⟩, rfl⟩
  · exact ⟨⟨.le, trivial⟩, rfl⟩
  · exact ⟨⟨.eq, trivial⟩, rfl⟩
  · exact ⟨⟨.ne, trivial⟩, rfl⟩

theorem isCompare_of_compareSymbol (hmem : type ∈ binaryLevels.flatten)
    {op : CompareOp} (hop : op.IsComparison) (h : (symbolToken type).text = compareSymbol op) :
    isCompare type = true := by
  have hall : ∀ type ∈ binaryLevels.flatten,
      (symbolToken type).text ∈ [['=', '='], ['!', '='], ['>', '='], ['<', '='], ['>'], ['<']] →
        isCompare type = true := by decide
  refine hall type hmem ?_
  rw [h]
  cases op <;> first | exact hop.elim | decide

/-- What is found is a comparison. -/
theorem isComparison_of_find {text lhs rhs : List Char} {op : CompareOp} {s : Scan}
    {before : List Char} (h : findTopLevelCompare s before text = some (lhs, op, rhs)) :
    op.IsComparison := by
  have htoken : ∀ {text after : List Char}, compareToken text = some (op, after) →
      op.IsComparison := by
    intro text after htoken
    unfold compareToken at htoken
    split at htoken <;> cases htoken <;> trivial
  induction text generalizing s before with
  | nil => contradiction
  | cons c text ih =>
    rw [findTopLevelCompare] at h
    split at h
    · split at h
      · rename_i heq
        cases h
        exact htoken heq
      · exact ih h
    · exact ih h

/-- A token stands in one of two lists or is the one between them. -/
theorem append_cons_cases {α : Type} {lhs rhs before after : List α} {a b : α}
    (h : lhs ++ a :: rhs = before ++ b :: after) :
    (∃ l, lhs = before ++ b :: l ∧ after = l ++ a :: rhs) ∨
      (lhs = before ∧ a = b ∧ rhs = after) ∨
        ∃ l, before = lhs ++ a :: l ∧ rhs = l ++ b :: after := by
  rcases List.append_eq_append_iff.mp h with ⟨l, hbefore, hl⟩ | ⟨l, hlhs, hl⟩
  · cases l with
    | nil =>
      obtain ⟨ha, hrhs⟩ := List.cons.inj hl
      exact .inr (.inl ⟨(hbefore.trans (List.append_nil lhs)).symm, ha, hrhs⟩)
    | cons a' l =>
      obtain ⟨rfl, hrhs⟩ := List.cons.inj hl
      exact .inr (.inr ⟨l, hbefore, hrhs⟩)
  · cases l with
    | nil =>
      obtain ⟨hb, hafter⟩ := List.cons.inj hl
      exact .inr (.inl ⟨hlhs.trans (List.append_nil before), hb.symm, hafter.symm⟩)
    | cons b' l =>
      obtain ⟨rfl, hafter⟩ := List.cons.inj hl
      exact .inl ⟨l, hlhs, hafter⟩

section Converse

variable {before after : List TextToken} {op : CompareOp}

theorem compareSymbol_not_paren (hop : op.IsComparison) :
    TextToken.symbol (compareSymbol op) ≠ .symbol ['('] ∧
      TextToken.symbol (compareSymbol op) ≠ .symbol [')'] := by
  cases op <;> first | exact hop.elim | decide

theorem compareSymbol_not_known (hop : op.IsComparison) :
    ¬(TextToken.symbol (compareSymbol op)).Known := by
  show compareSymbol op ∉ arithmeticSymbols
  cases op <;> first | exact hop.elim | decide

theorem rank_of_isCompare {type : RhsTokenType} (h : isCompare type = true) :
    operatorRank type = 4 := by
  cases type <;> first | contradiction | decide

theorem single_ne {t : TextToken} (ht : t ≠ .symbol (compareSymbol op)) :
    [t] ≠ before ++ .symbol (compareSymbol op) :: after := by
  intro h
  have hmem : TextToken.symbol (compareSymbol op) ∈ [t] := by
    rw [h]
    exact List.mem_append_right _ List.mem_cons_self
  exact ht (List.mem_singleton.mp hmem).symm

/-- **A comparison in an expression of a lower level** stands in parentheses. -/
theorem RhsExpr.openings_pos (hop : op.IsComparison) : ∀ (expr : RhsExpr), expr.Each Parsed →
    expr.rank ≤ 3 → ∀ {before after : List TextToken},
      expr.storedTokens = before ++ .symbol (compareSymbol op) :: after → 0 < openings before
  | .ternary _ _ _, _, hrank, _, _, _ => absurd hrank (by decide : ¬7 ≤ 3)
  | .binary op' lhs rhs, ⟨⟨hop', hmem, hlhsRank, hrhsRank⟩, hlhs, hrhs⟩, hrank, before, after,
    heq => by
    have hrank' : operatorRank op'.type ≤ 3 := hrank
    rcases append_cons_cases heq with ⟨l, hl, -⟩ | ⟨-, hsymbol, -⟩ | ⟨l, rfl, hl⟩
    · exact RhsExpr.openings_pos hop lhs hlhs (hlhsRank.trans hrank') hl
    · -- the operator is no comparison
      rw [hop'] at hsymbol
      have hcompare := isCompare_of_compareSymbol hmem hop (TextToken.symbol.inj hsymbol)
      rw [rank_of_isCompare hcompare] at hrank'
      omega
    · have hpos := RhsExpr.openings_pos hop rhs hrhs (by omega) hl
      have hparen := ne_paren_of_mem hmem
      rw [← hop'] at hparen
      have hzero := (Balanced.nil.cons hparen).openings_eq
      rw [openings_append, openings_cons, (lhs.balanced hlhs).openings_eq, hzero]
      omega
  | .paren expr, ⟨_, hexpr⟩, _, _, _, heq =>
    (expr.balanced hexpr).openings_pos heq (compareSymbol_not_paren hop)
  | .path _ _, _, _, _, _, heq => absurd heq (single_ne nofun)
  | .number _, _, _, _, _, heq => absurd heq (single_ne nofun)
  | .call name args, ⟨_, hargs⟩, _, before, after, heq => by
    have heq' : callTokens name (storedTokensOf args) =
      before ++ .symbol (compareSymbol op) :: after := heq
    have hparen := compareSymbol_not_paren hop
    unfold callTokens at heq'
    split at heq'
    · exact (Balanced.join (by decide) (RhsExpr.balancedOf args hargs)).openings_pos heq' hparen
    · cases before with
      | nil => exact absurd (List.cons.inj heq').1 nofun
      | cons t before =>
        obtain ⟨rfl, hrest⟩ := List.cons.inj heq'
        have hpos := (Balanced.join (by decide) (RhsExpr.balancedOf args hargs)).openings_pos hrest
          hparen
        have hword : openings [.word (storedName name)] = 0 := rfl
        rw [openings_cons, hword]
        omega
  | .string _, _, _, _, _, heq => absurd heq (single_ne nofun)

/-- Where a comparison stands between tokens of readings, it is what the expression is. -/
theorem RhsExpr.exists_comparison {expr : RhsExpr} (hparsed : expr.Each Parsed)
    (hop : op.IsComparison) (hbefore : ∀ t ∈ before, t.Known) (hafter : ∀ t ∈ after, t.Known)
    (hzero : openings before = 0)
    (heq : expr.storedTokens = before ++ .symbol (compareSymbol op) :: after) :
    ∃ op' lhs rhs, expr = .binary op' lhs rhs ∧ isCompare op'.type = true ∧
      lhs.Each Arithmetic ∧ rhs.Each Arithmetic := by
  have hlow : ¬expr.rank ≤ 3 := fun hrank ↦ by
    have hpos := RhsExpr.openings_pos hop expr hparsed hrank heq
    omega
  have hsymbols : ∀ t ∈ expr.storedTokens, t.Known ∨ t = .symbol (compareSymbol op) := by
    rw [heq, List.forall_mem_append, List.forall_mem_cons]
    exact ⟨fun t ht ↦ .inl (hbefore t ht), .inr rfl, fun t ht ↦ .inl (hafter t ht)⟩
  cases expr with
  | ternary condition trueExpr falseExpr =>
    have hquestion : TextToken.symbol ['?'] ∈
        (RhsExpr.ternary condition trueExpr falseExpr).storedTokens := by
      rw [storedTokens]
      exact List.mem_append_right _ List.mem_cons_self
    rcases hsymbols _ hquestion with hknown | hsymbol
    · exact absurd hknown (by decide : ['?'] ∉ arithmeticSymbols)
    · cases op <;> first | exact hop.elim | exact absurd hsymbol (by decide)
  | binary op' lhs rhs =>
    obtain ⟨⟨hop', hmem, -⟩, hlhs, hrhs⟩ := hparsed
    have hhere : TextToken.symbol op'.text ∈ (RhsExpr.binary op' lhs rhs).storedTokens := by
      rw [storedTokens]
      exact List.mem_append_right _ List.mem_cons_self
    have htext : op'.text = (symbolToken op'.type).text := congrArg RhsToken.text hop'
    by_cases hcompare : isCompare op'.type = true
    · refine ⟨op', lhs, rhs, rfl, hcompare, ?_⟩
      obtain ⟨⟨op'', hop''⟩, hsymbol⟩ := exists_compareSymbol hcompare
      have hunknown : ¬(TextToken.symbol op'.text).Known := by
        rw [htext, hsymbol]
        exact compareSymbol_not_known hop''
      -- so the operator is the one that was found
      rcases append_cons_cases heq with ⟨l, -, rfl⟩ | ⟨rfl, -, rfl⟩ | ⟨l, rfl, -⟩
      · exact absurd (hafter _ (List.mem_append_right _ List.mem_cons_self)) hunknown
      · exact ⟨lhs.arithmetic_of_known hlhs hbefore, rhs.arithmetic_of_known hrhs hafter⟩
      · exact absurd (hbefore _ (List.mem_append_right _ List.mem_cons_self)) hunknown
    · have hknown : (TextToken.symbol op'.text).Known := by
        refine (hsymbols _ hhere).resolve_right fun hsymbol ↦ hcompare ?_
        exact isCompare_of_compareSymbol hmem hop (htext.symm.trans (TextToken.symbol.inj hsymbol))
      rw [htext] at hknown
      refine absurd ?_ hlow
      have hrank : ∀ type ∈ binaryLevels.flatten,
          isAdditive type = true ∨ isMultiplicative type = true → operatorRank type ≤ 3 := by
        decide
      exact hrank op'.type hmem (RulesForge.arithmetic_of_known hmem hknown)
  | paren | path | number | call | string => exact absurd (Nat.zero_le 3) hlow

end Converse

/-- A condition that is read as its tokens: a value, or a comparison of two. -/
def RhsExpr.FaithfulCondition (expr : RhsExpr) : Prop :=
  expr.Faithful ∨ ∃ op lhs rhs, expr = .binary op lhs rhs ∧ isCompare op.type = true ∧
    lhs.Faithful ∧ rhs.Faithful

/-- A comparison of two values is split at its operator. -/
theorem conditionTokens_comparison {op : RhsToken} {lhs rhs : RhsExpr}
    (hop : op = symbolToken op.type) (hcompare : isCompare op.type = true)
    (hlhs : lhs.Each RhsExpr.Readable) (hrhs : rhs.Each RhsExpr.Readable) :
    conditionTokens (RhsExpr.binary op lhs rhs).text = (RhsExpr.binary op lhs rhs).storedTokens ↔
      lhs.Each RhsExpr.Steady ∧ rhs.Each RhsExpr.Steady := by
  obtain ⟨symbol, hsymbol⟩ := exists_compareSymbol hcompare
  have htext : op.text = compareSymbol symbol := (congrArg RhsToken.text hop).trans hsymbol
  have hpassed := @Uncompared.findTopLevelCompare lhs.text
    (' ' :: (compareSymbol symbol ++ ' ' :: rhs.text)) [] 0 (lhs.uncompared hlhs) nofun
  rw [(lhs.level_tight hlhs).1.run, findTopLevelCompare_symbol symbol] at hpassed
  have hfind : findTopLevelCompare {} [] (RhsExpr.binary op lhs rhs).text =
      some (lhs.text ++ [' '], symbol.1, ' ' :: rhs.text) := by
    rw [RhsExpr.text, htext, List.append_assoc]
    exact hpassed
  have hleft := valueTokens_agree hlhs
    ((trimAscii_concat_space lhs.text).trans (lhs.level_tight hlhs).2.trim) (by simp)
  have hright := valueTokens_agree hrhs
    ((trimAscii_cons_space rhs.text).trans (rhs.level_tight hrhs).2.trim) (by simp)
  have hall := hleft.append (hright.cons (.symbol (compareSymbol symbol)))
  rw [conditionTokens, hfind, RhsExpr.storedTokens, htext]
  exact hall.eq_iff

/-- **When a condition is read as its tokens**, if its strings are clean. -/
theorem RhsExpr.conditionTokens_iff {expr : RhsExpr} (htyped : expr.Typed)
    (hwf : ∀ t ∈ expr.tokens, RhsLexer.WellFormed t) (hclean : expr.Each Clean) :
    conditionTokens expr.text = expr.storedTokens ↔ expr.FaithfulCondition := by
  have hparsed := expr.parsed htyped hwf
  -- a comparison of arithmetic sides
  have hsides : ∀ op lhs rhs, expr = .binary op lhs rhs → isCompare op.type = true →
      lhs.Each Arithmetic → rhs.Each Arithmetic →
      (conditionTokens expr.text = expr.storedTokens ↔ lhs.Each Steady ∧ rhs.Each Steady) := by
    rintro op lhs rhs rfl hcompare harithmetic harithmetic'
    have hwf' : ∀ t ∈ lhs.tokens ++ op :: rhs.tokens, RhsLexer.WellFormed t := hwf
    rw [List.forall_mem_append, List.forall_mem_cons] at hwf'
    exact conditionTokens_comparison hparsed.1.1 hcompare
      (lhs.readable harithmetic hclean.2.1 htyped.2.1 hwf'.1)
      (rhs.readable harithmetic' hclean.2.2 htyped.2.2 hwf'.2.2)
  constructor
  · intro h
    cases hfind : findTopLevelCompare {} [] expr.text with
    | none =>
      rw [conditionTokens, hfind] at h
      exact .inl ((expr.valueTokens_iff htyped hwf hclean).mp h)
    | some found =>
      obtain ⟨left, op, right⟩ := found
      have h' := h
      rw [conditionTokens, hfind] at h'
      obtain ⟨op', lhs, rhs, heq, hcompare, hlhs, hrhs⟩ := RhsExpr.exists_comparison hparsed
        (isComparison_of_find hfind) (readText_known _ left) (readText_known _ right)
        (readText_openings _ left) h'.symm
      obtain ⟨hsteady, hsteady'⟩ := (hsides op' lhs rhs heq hcompare hlhs hrhs).mp h
      exact .inr ⟨op', lhs, rhs, heq, hcompare, ⟨hlhs, hsteady⟩, ⟨hrhs, hsteady'⟩⟩
  · rintro (h | ⟨op, lhs, rhs, heq, hcompare, hlhs, hrhs⟩)
    · have hreadable := expr.readable h.1 hclean htyped hwf
      have hpassed := @Uncompared.findTopLevelCompare expr.text [] [] 0 (expr.uncompared hreadable)
        nofun
      rw [List.append_nil] at hpassed
      have hnone : findTopLevelCompare {} [] expr.text = none := hpassed
      rw [conditionTokens, hnone]
      exact (expr.valueTokens_iff htyped hwf hclean).mpr h
    · exact (hsides op lhs rhs heq hcompare hlhs.1 hrhs.1).mpr ⟨hlhs.2, hrhs.2⟩

/-! ### Strings -/

section Strings

open RhsLexer

/-- A string in a source, with its quotes and backslashes escaped. -/
def stringSource (letters : List Char) : List Char :=
  '"' :: (escapeLetters letters ++ ['"'])

theorem parse_stringSource (letters : List Char) (depth : ℕ) :
    parseExpression (depth + 1) (reader.tokens (stringSource letters)) =
      some (.string letters, []) := by
  have hspells := @spells_string ⟨.string, letters⟩ rfl
  have hnext := @TokenReader.next_spelling _ reader _ _ [] hspells nofun
  have htokens : reader.tokens (stringSource letters) = [⟨.string, letters⟩] := by
    rw [List.append_nil] at hnext
    rw [stringSource, TokenReader.tokens_of_next hnext]
    rfl
  rw [htokens]
  rfl

variable {library : NumberLibrary} {resolve : List Char → Option ConstraintValue}

/-- **When a string is evaluated to itself**: no operator stands at the top of its text, which has
the letters of the string between quotes as they are. -/
theorem evaluateSimpleRhsValue_string_iff (letters : List Char) :
    evaluateSimpleRhsValue library resolve (RhsExpr.string letters).text =
        some (.string (String.ofList letters)) ↔
      findTopLevelArithmetic (RhsExpr.string letters).text = none := by
  have htight : Tight ('"' :: letters ++ ['"']) :=
    ⟨⟨'"', letters ++ ['"'], rfl, rfl⟩, ⟨'"' :: letters, '"', rfl, rfl⟩⟩
  have hwraps : hasWrappingParentheses ('"' :: letters ++ ['"']) = false := by
    refine Bool.eq_false_iff.mpr fun hwraps ↦ ?_
    have hopen : some '"' = some '(' := (ends_of_hasWrappingParentheses hwraps).1
    cases hopen
  rw [RhsExpr.text, evaluateSimpleRhsValue]
  cases hfind : findTopLevelArithmetic ('"' :: letters ++ ['"']) with
  | none =>
    have hatom : (rhsEvaluator library resolve).atom ('"' :: letters ++ ['"']) =
        some (.string (String.ofList letters)) := by
      rw [TextEvaluator.atom, if_pos (.inl ⟨rfl, List.getLast?_concat⟩)]
      simp
    exact iff_of_true ((evaluateText_of_atom htight.trim rfl hwraps hfind).trans hatom) rfl
  | some found =>
    -- an operation has a number for its value
    obtain ⟨lhs, sign, rhs⟩ := found
    rw [evaluateText_of_split htight.trim rfl hwraps hfind]
    refine iff_of_false (fun hvalue ↦ ?_) (Option.some_ne_none _)
    obtain ⟨a, -, hvalue⟩ := Option.bind_eq_some_iff.mp hvalue
    obtain ⟨b, -, hvalue⟩ := Option.bind_eq_some_iff.mp hvalue
    unfold TextEvaluator.arithmetic at hvalue
    split at hvalue
    · split at hvalue
      · contradiction
      · split at hvalue
        · split at hvalue <;> cases hvalue
        · cases hvalue
    · contradiction

end Strings

/-! ### Faithful texts -/

section Faithful

open RhsLexer

/-- **When the text of an expression is faithful.** White space around its tokens does not matter
if and only if no minus stands before a number without a sign; if its strings are clean, the
executor reads the tokens in it, as a value and as a condition, if and only if it knows the
operators and no sign follows a `*` or `/`; and a string is evaluated to what it stands for if and
only if no operator comes to the top of its text. -/
theorem rhs_text_faithful_iff {source : List Char} {depth : ℕ} {expr : RhsExpr}
    (h : parseExpression depth (reader.tokens source) = some (expr, [])) :
    ((∀ text, reader.Layout (reader.tokens source) text →
        parseExpression depth (reader.tokens text) = some (expr, [])) ↔
      (reader.tokens source).IsChain fun t t' ↦ ¬IsGlued t t') ∧
    (expr.Each RhsExpr.Clean →
      (valueTokens expr.text = expr.storedTokens ↔ expr.Faithful) ∧
        (conditionTokens expr.text = expr.storedTokens ↔ expr.FaithfulCondition)) ∧
    ∀ library resolve letters,
      parseExpression depth (reader.tokens (stringSource letters)) = some (.string letters, []) ∧
        (evaluateSimpleRhsValue library resolve (RhsExpr.string letters).text =
            some (.string (String.ofList letters)) ↔
          findTopLevelArithmetic (RhsExpr.string letters).text = none) := by
  obtain ⟨htokens, htyped, -⟩ := parses_expression depth _ _ _
    (fun t ht ↦ wellFormed_of_mem_tokens ht) h
  rw [List.append_nil] at htokens
  have hwf : ∀ t ∈ expr.tokens, WellFormed t := by
    rw [← htokens]
    exact fun t ht ↦ wellFormed_of_mem_tokens ht
  refine ⟨layouts_parse_iff h, fun hclean ↦ ⟨expr.valueTokens_iff htyped hwf hclean,
    expr.conditionTokens_iff htyped hwf hclean⟩, fun library resolve letters ↦
      ⟨?_, evaluateSimpleRhsValue_string_iff letters⟩⟩
  cases depth with
  | zero => contradiction
  | succ depth => exact parse_stringSource letters depth

/-- A product is parsed and read as its tokens, however it is spaced, also as a condition. -/
theorem rhs_text_faithful_product :
    ∃ expr, (∀ text, reader.Layout (reader.tokens "$a * 2".toList) text →
        parseExpression 1 (reader.tokens text) = some (expr, [])) ∧
      valueTokens expr.text = expr.storedTokens ∧
      conditionTokens expr.text = expr.storedTokens := by
  have hparse : parseExpression 1 (reader.tokens "$a * 2".toList) =
      some (.binary ⟨.star, ['*']⟩ (.path ⟨.variable, ['$', 'a']⟩ []) (.number ⟨.integer, ['2']⟩),
        []) := rfl
  obtain ⟨hlayout, hread, -⟩ := rhs_text_faithful_iff hparse
  obtain ⟨hvalue, hcondition⟩ := hread ⟨trivial, trivial, trivial⟩
  have hfaithful : RhsExpr.Faithful (.binary ⟨.star, ['*']⟩ (.path ⟨.variable, ['$', 'a']⟩ [])
      (.number ⟨.integer, ['2']⟩)) :=
    ⟨⟨.inr rfl, trivial, trivial⟩, fun _ hsigned ↦ absurd (Option.some.inj hsigned) (by decide),
      trivial, trivial⟩
  have hchain : (reader.tokens "$a * 2".toList).IsChain fun t t' ↦ ¬IsGlued t t' :=
    .cons_cons (fun h ↦ nomatch h.1) (.cons_cons (fun h ↦ nomatch h.1) (.singleton _))
  exact ⟨_, hlayout.mpr hchain, hvalue.mpr hfaithful, hcondition.mpr (.inl hfaithful)⟩

theorem minus_layout : reader.Layout (reader.tokens "$a - 1".toList) "$a -1".toList := by
  have htokens : reader.tokens "$a - 1".toList =
      [⟨.variable, ['$', 'a']⟩, ⟨.minus, ['-']⟩, ⟨.integer, ['1']⟩] := rfl
  rw [htokens]
  have hvariable : RhsToken.Spells ⟨.variable, ['$', 'a']⟩ ['$', 'a'] :=
    spells_variable rfl rfl (forall_mem_of_all rfl)
  have hone : RhsToken.Spells ⟨.integer, ['1']⟩ ['1'] :=
    spells_integer rfl ⟨[], ['1'], rfl, .inl rfl, List.cons_ne_nil _ _, forall_mem_of_all rfl⟩
  obtain ⟨spelling, hminus⟩ := @exists_spelling ⟨.minus, ['-']⟩ rfl RhsTokenType.noConfusion
  obtain rfl := spells_minus rfl hminus
  have hnone : ∀ c ∈ ([] : List Char), reader.blank c = true :=
    fun c hc ↦ absurd hc List.not_mem_nil
  have hspace : ∀ c ∈ [' '], reader.blank c = true := by
    intro c hc
    rw [List.mem_singleton.mp hc]
    rfl
  exact .cons hnone hvariable (.cons hspace hminus (.cons hnone hone (.nil hnone)))

/-- Without the space behind its minus, `$a - 1` is `$a` and a number; a sign behind `*` is read
as an operator; and a string with quotes in it is taken for a sum. -/
theorem rhs_text_not_faithful :
    (∃ expr, parseExpression 1 (reader.tokens "$a - 1".toList) = some (expr, []) ∧
      reader.Layout (reader.tokens "$a - 1".toList) "$a -1".toList ∧
      parseExpression 1 (reader.tokens "$a -1".toList) ≠ some (expr, [])) ∧
    (∃ expr, parseExpression 1 (reader.tokens "2 * -5".toList) = some (expr, []) ∧
      valueTokens expr.text ≠ expr.storedTokens) ∧
    parseExpression 1 (reader.tokens (stringSource "a\" + \"b".toList)) =
        some (.string "a\" + \"b".toList, []) ∧
      ∀ library resolve, evaluateSimpleRhsValue library resolve
        (RhsExpr.string "a\" + \"b".toList).text ≠ some (.string "a\" + \"b") := by
  have hminus : parseExpression 1 (reader.tokens "$a - 1".toList) =
      some (.binary ⟨.minus, ['-']⟩ (.path ⟨.variable, ['$', 'a']⟩ []) (.number ⟨.integer, ['1']⟩),
        []) := rfl
  have hsign : parseExpression 1 (reader.tokens "2 * -5".toList) =
      some (.binary ⟨.star, ['*']⟩ (.number ⟨.integer, ['2']⟩) (.number ⟨.integer, ['-', '5']⟩),
        []) := rfl
  refine ⟨⟨_, hminus, minus_layout, fun hread ↦ ?_⟩, ⟨_, hsign, by decide⟩,
    parse_stringSource _ 0, fun library resolve hvalue ↦ ?_⟩
  · have hnumber : parseExpression 1 (reader.tokens "$a -1".toList) =
        some (.path ⟨.variable, ['$', 'a']⟩ [], [⟨.integer, ['-', '1']⟩]) := rfl
    cases hnumber.symm.trans hread
  · exact absurd ((evaluateSimpleRhsValue_string_iff _).mp hvalue) (by decide)

end Faithful

end RulesForge
