import RulesForge.Engine.RhsText

/-!
# What the executor reads in the text of an expression

The text of a readable expression is **flat** (`FlatText`): terms with an operator between each two
of them, where the terms in parentheses and calls are flat again. The executor splits it at its
first `+` or `-`, or else at its first `*` or `/`, and a sign behind a `*` or `/` is an operator to
it. So it reads the tokens of the expression if and only if there is no such sign
(`FlatText.readText_tokens`).
-/

namespace RulesForge

/-! ### Lists that agree -/

/-- Two lists agree, whatever follows them, if and only if a condition holds. -/
def AgreeIff {α : Type} (p : Prop) (l l' : List α) : Prop :=
  ∀ rest rest', l ++ rest = l' ++ rest' ↔ p ∧ rest = rest'

namespace AgreeIff

variable {α : Type} {p q : Prop} {l l' m m' : List α}

theorem refl (l : List α) : AgreeIff True l l := fun rest rest' ↦ by
  rw [List.append_cancel_left_eq, true_and]

theorem congr (h : AgreeIff p l l') (hpq : p ↔ q) : AgreeIff q l l' := fun rest rest' ↦ by
  rw [h rest rest', hpq]

theorem append (h : AgreeIff p l l') (h' : AgreeIff q m m') :
    AgreeIff (p ∧ q) (l ++ m) (l' ++ m') := fun rest rest' ↦ by
  rw [List.append_assoc, List.append_assoc, h, h', and_assoc]

theorem cons (h : AgreeIff p l l') (a : α) : AgreeIff p (a :: l) (a :: l') :=
  ((refl [a]).append h).congr (iff_of_eq (true_and p))

/-- Lists that begin differently do not agree. -/
theorem of_ne {a a' : α} (h : a ≠ a') (l l' : List α) : AgreeIff False (a :: l) (a' :: l') :=
  fun rest rest' ↦ by
    rw [List.cons_append, List.cons_append, List.cons.injEq, false_and, iff_false]
    exact fun heq ↦ h heq.1

theorem eq_iff (h : AgreeIff p l l') : l = l' ↔ p := by
  have hends := h [] []
  rwa [List.append_nil, List.append_nil, eq_self_iff_true, and_true] at hends

end AgreeIff

/-! ### Flat texts -/

/-- An operator and the term behind it. -/
structure RhsItem where
  op : Char
  term : RhsExpr

namespace RhsItem

/-- An item is multiplied, and not by a number with a sign. -/
def Multiplied (item : RhsItem) : Prop :=
  isOperator 1 item.op = true ∧ ¬item.term.Signed

/-- An item after the first one: a sum or a product of readable terms. -/
structure Readable (item : RhsItem) : Prop where
  isTerm : item.term.IsTerm
  term : item.term.Each RhsExpr.Readable
  op : isOperator 0 item.op = true ∨ isOperator 1 item.op = true

def Steady (item : RhsItem) : Prop :=
  (isOperator 1 item.op = true → ¬item.term.Signed) ∧ item.term.Each RhsExpr.Steady

end RhsItem

def itemsText (items : List RhsItem) : List Char :=
  items.flatMap fun item ↦ ' ' :: item.op :: ' ' :: item.term.text

def itemsTokens (items : List RhsItem) : List TextToken :=
  items.flatMap fun item ↦ .symbol [item.op] :: item.term.storedTokens

/-- Terms with operators between them. -/
structure FlatText where
  first : RhsExpr
  items : List RhsItem
  isTerm : first.IsTerm
  readable : first.Each RhsExpr.Readable
  itemsReadable : ∀ item ∈ items, item.Readable

namespace FlatText

variable (f g : FlatText)

def text : List Char := f.first.text ++ itemsText f.items

def tokens : List TextToken := f.first.storedTokens ++ itemsTokens f.items

def Steady : Prop := f.first.Each RhsExpr.Steady ∧ ∀ item ∈ f.items, item.Steady

/-- A term on its own. -/
def single {term : RhsExpr} (hterm : term.IsTerm) (h : term.Each RhsExpr.Readable) : FlatText where
  first := term
  items := []
  isTerm := hterm
  readable := h
  itemsReadable := nofun

theorem text_single {term : RhsExpr} (hterm : term.IsTerm) (h : term.Each RhsExpr.Readable) :
    (single hterm h).text = term.text :=
  List.append_nil _

theorem tokens_single {term : RhsExpr} (hterm : term.IsTerm) (h : term.Each RhsExpr.Readable) :
    (single hterm h).tokens = term.storedTokens :=
  List.append_nil _

theorem steady_single {term : RhsExpr} (hterm : term.IsTerm) (h : term.Each RhsExpr.Readable) :
    (single hterm h).Steady ↔ term.Each RhsExpr.Steady :=
  ⟨And.left, fun hsteady ↦ ⟨hsteady, nofun⟩⟩

/-- Two flat texts with an operator between them. -/
def join {op : Char} (hop : isOperator 0 op = true ∨ isOperator 1 op = true) : FlatText where
  first := f.first
  items := f.items ++ ⟨op, g.first⟩ :: g.items
  isTerm := f.isTerm
  readable := f.readable
  itemsReadable := List.forall_mem_append.mpr ⟨f.itemsReadable,
    List.forall_mem_cons.mpr ⟨⟨g.isTerm, g.readable, hop⟩, g.itemsReadable⟩⟩

section Join

variable {op : Char} (hop : isOperator 0 op = true ∨ isOperator 1 op = true)

theorem text_join : (f.join g hop).text = f.text ++ ' ' :: op :: ' ' :: g.text := by
  show f.first.text ++ itemsText (f.items ++ ⟨op, g.first⟩ :: g.items) = _
  simp [itemsText, text]

theorem tokens_join : (f.join g hop).tokens = f.tokens ++ .symbol [op] :: g.tokens := by
  show f.first.storedTokens ++ itemsTokens (f.items ++ ⟨op, g.first⟩ :: g.items) = _
  simp [itemsTokens, tokens]

theorem steady_join : (f.join g hop).Steady ↔
    f.Steady ∧ (isOperator 1 op = true → ¬g.first.Signed) ∧ g.Steady := by
  show _ ∧ (∀ item ∈ f.items ++ ⟨op, g.first⟩ :: g.items, RhsItem.Steady item) ↔ _
  rw [List.forall_mem_append, List.forall_mem_cons]
  unfold Steady RhsItem.Steady
  tauto

end Join

theorem tight_append {before : List Char} (h : Tight before) {items : List RhsItem}
    (hitems : ∀ item ∈ items, item.Readable) : Tight (before ++ itemsText items) := by
  induction items generalizing before with
  | nil =>
    rw [itemsText, List.flatMap_nil, List.append_nil]
    exact h
  | cons item items ih =>
    have hitem := hitems item List.mem_cons_self
    have hnext := h.append (item.term.level_tight hitem.term).2 [' ', item.op, ' ']
    have hrest := ih hnext fun item' hitem' ↦ hitems item' (List.mem_cons_of_mem item hitem')
    simpa [itemsText] using hrest

theorem tight : Tight f.text :=
  tight_append (f.first.level_tight f.readable).2 f.itemsReadable

end FlatText

/-! ### Expressions are flat -/

theorem exists_flat_term (term : RhsExpr) (hterm : term.IsTerm) (h : term.Each RhsExpr.Readable) :
    ∃ f : FlatText, f.text = term.text ∧ f.tokens = term.storedTokens ∧
      (f.Steady ↔ term.Each RhsExpr.Steady) ∧ (f.first.Signed ↔ term.Signed) :=
  ⟨.single hterm h, FlatText.text_single hterm h, FlatText.tokens_single hterm h,
    FlatText.steady_single hterm h, Iff.rfl⟩

/-- **The text of an expression** is flat. -/
theorem RhsExpr.exists_flat : ∀ expr : RhsExpr, expr.Each Readable →
    ∃ f : FlatText, f.text = expr.text ∧ f.tokens = expr.storedTokens ∧
      (f.Steady ↔ expr.Each Steady) ∧ (f.first.Signed ↔ expr.Signed)
  | .ternary _ _ _, h => h.1.elim
  | .binary op lhs rhs, ⟨⟨c, htext, hop⟩, hlhs, hrhs⟩ => by
    obtain ⟨f, hf, hfTokens, hfSteady, hfSigned⟩ := RhsExpr.exists_flat lhs hlhs
    obtain ⟨g, hg, hgTokens, hgSteady, hgSigned⟩ := RhsExpr.exists_flat rhs hrhs
    refine ⟨f.join g hop, ?_, ?_, ?_, hfSigned⟩
    · rw [f.text_join, hf, hg, RhsExpr.text, htext]
      simp
    · rw [f.tokens_join, hfTokens, hgTokens, storedTokens, htext]
    · have hsign : (op.text = ['*'] ∨ op.text = ['/']) ↔ isOperator 1 c = true := by
        simp [htext, isOperator]
      have hhere : Steady (.binary op lhs rhs) ↔ (isOperator 1 c = true → ¬rhs.Signed) := by
        rw [← hsign]
        rfl
      rw [f.steady_join, hfSteady, hgSteady, hgSigned, ← hhere]
      exact and_left_comm
  | .paren expr, h => exists_flat_term (.paren expr) trivial h
  | .path word fields, h => exists_flat_term (.path word fields) trivial h
  | .number token, h => exists_flat_term (.number token) trivial h
  | .call name args, h => exists_flat_term (.call name args) trivial h
  | .string letters, h => exists_flat_term (.string letters) trivial h

/-- So are the arguments of a call of `concat`. -/
theorem exists_flat_sum {args : List RhsExpr} (h : EachOf RhsExpr.Readable args) (hne : args ≠ []) :
    ∃ f : FlatText, f.text = " + ".toList.intercalate (RhsExpr.texts args) ∧
      f.tokens = joinTokens (.symbol ['+']) (storedTokensOf args) ∧
      (f.Steady ↔ EachOf RhsExpr.Steady args) := by
  induction args with
  | nil => exact absurd rfl hne
  | cons arg args ih =>
    obtain ⟨f, hf, htokens, hsteady, -⟩ := arg.exists_flat h.1
    cases args with
    | nil => exact ⟨f, by simp [hf, RhsExpr.texts], by simp [htokens, storedTokensOf,
        joinTokens], hsteady.trans (iff_of_eq (and_true _)).symm⟩
    | cons arg' args =>
      obtain ⟨g, hg, hgTokens, hgSteady⟩ := ih h.2 (List.cons_ne_nil _ _)
      have hplus : isOperator 0 '+' = true ∨ isOperator 1 '+' = true := .inl rfl
      refine ⟨f.join g hplus, ?_, ?_, ?_⟩
      · rw [f.text_join, hf, hg]
        show _ = " + ".toList.intercalate (arg.text :: arg'.text :: RhsExpr.texts args)
        rw [List.intercalate_cons_cons, List.append_assoc]
        rfl
      · rw [f.tokens_join, htokens, hgTokens]
        rfl
      · rw [f.steady_join, hsteady, hgSteady]
        show _ ∧ _ ∧ _ ↔ arg.Each RhsExpr.Steady ∧ EachOf RhsExpr.Steady (arg' :: args)
        simp [isOperator]

/-! ### The arguments of a call -/

section Passing

variable {wanted : List Char → Char → Bool} {before rest : List Char}

/-- Terms and operators are passed, where no letter of theirs is wanted. -/
theorem passed_items (hletters : ∀ c, isWordLetter c = true → ∀ before, wanted before c = false)
    (hspace : ∀ before, wanted before ' ' = false) {items : List RhsItem}
    (hitems : ∀ item ∈ items, item.Readable)
    (hops : ∀ item ∈ items, (∀ before, wanted before item.op = false) ∧
      (item.term.Signed → ∀ before, wanted before '-' = false)) :
    splitAtTop wanted {} before (itemsText items ++ rest) =
      splitAtTop wanted {} (before ++ itemsText items) rest := by
  induction items generalizing before with
  | nil =>
    show splitAtTop wanted {} before rest = splitAtTop wanted {} (before ++ []) rest
    rw [List.append_nil]
  | cons item items ih =>
    obtain ⟨hterm, hreadable, hop⟩ := hitems item List.mem_cons_self
    obtain ⟨hwanted, hsigned⟩ := hops item List.mem_cons_self
    have hmark : isMark item.op = false := by
      rcases hop with hop | hop <;> exact (isOperator_plain hop).1
    have hbetween : ∀ c ∈ [' ', item.op, ' '],
        isMark c = false ∧ ∀ before, wanted before c = false := by
      intro c hc
      simp only [List.mem_cons, List.not_mem_nil, or_false] at hc
      rcases hc with rfl | rfl | rfl
      · exact ⟨rfl, hspace⟩
      · exact ⟨hmark, hwanted⟩
      · exact ⟨rfl, hspace⟩
    -- the operator with its spaces, the term, and the others
    have hplain := @splitAtTop_plain wanted before [' ', item.op, ' ']
      (item.term.text ++ (itemsText items ++ rest)) 0 (fun c hc ↦ (hbetween c hc).1)
      fun c hc ↦ (hbetween c hc).2
    have hnext := @RhsExpr.passed wanted (before ++ [' ', item.op, ' '])
      (itemsText items ++ rest) item.term hreadable hterm hletters fun hsign ↦ hsigned hsign _
    have hrest := @ih (before ++ [' ', item.op, ' '] ++ item.term.text)
      (fun item' hitem' ↦ hitems item' (List.mem_cons_of_mem item hitem'))
      fun item' hitem' ↦ hops item' (List.mem_cons_of_mem item hitem')
    have hall := hplain.trans (hnext.trans hrest)
    simpa [itemsText, Scan.atDepth] using hall

end Passing

def isComma (_ : List Char) (c : Char) : Bool := c = ','

theorem splitArguments_of_none {s : Scan} {arg text : List Char}
    (h : splitAtTop isComma s arg text = none) :
    splitArguments s arg text = [trimAscii (arg ++ text)] := by
  induction text generalizing s arg with
  | nil => rw [List.append_nil, splitArguments]
  | cons c text ih =>
    rw [splitAtTop] at h
    split at h
    · contradiction
    · rename_i hc
      have hskip : ¬(s.atTop c && decide (c = ',')) = true := hc
      rw [splitArguments, if_neg hskip, ih h, List.append_assoc]
      rfl

theorem splitArguments_of_some {s : Scan} (hs : s.Settled) {arg text lhs rhs : List Char} {c : Char}
    (h : splitAtTop isComma s arg text = some (lhs, c, rhs)) :
    splitArguments s arg text = trimAscii lhs :: splitArguments {} [] rhs := by
  induction text generalizing s arg with
  | nil => contradiction
  | cons d text ih =>
    rw [splitAtTop] at h
    split at h
    · rename_i hd
      cases h
      have hcomma : (s.atTop c && decide (c = ',')) = true := hd
      rw [Bool.and_eq_true] at hd
      rw [splitArguments, if_pos hcomma, (Scan.eq_of_atTop hs hd.1).2]
    · rename_i hd
      have hskip : ¬(s.atTop d && decide (d = ',')) = true := hd
      rw [splitArguments, if_neg hskip, ih (hs.next d) h]

theorem FlatText.passed_comma (f : FlatText) (before rest : List Char) :
    splitAtTop isComma {} before (f.text ++ rest) =
      splitAtTop isComma {} (before ++ f.text) rest := by
  have hletters : ∀ c, isWordLetter c = true → ∀ before, isComma before c = false :=
    fun c hc _ ↦ decide_eq_false (isWordLetter_plain hc).2.2.2.1
  have hfirst := @RhsExpr.passed isComma before (itemsText f.items ++ rest) f.first
    f.readable f.isTerm hletters fun _ ↦ rfl
  have hitems := @passed_items isComma (before ++ f.first.text) rest hletters (fun _ ↦ rfl)
    f.items f.itemsReadable fun item hitem ↦ ⟨fun _ ↦ decide_eq_false <| by
      rcases (f.itemsReadable item hitem).op with hop | hop <;> exact (isOperator_plain hop).2.2.1,
      fun _ _ ↦ rfl⟩
  rw [text, List.append_assoc, hfirst, hitems, List.append_assoc]

theorem RhsExpr.passed_comma {expr : RhsExpr} (h : expr.Each Readable) (before rest : List Char) :
    splitAtTop isComma {} before (expr.text ++ rest) =
      splitAtTop isComma {} (before ++ expr.text) rest := by
  obtain ⟨f, hf, -⟩ := expr.exists_flat h
  rw [← hf]
  exact f.passed_comma before rest

/-- **The arguments of a call** are read one by one, with a space before the later ones. -/
theorem splitArguments_texts {args : List RhsExpr} (h : EachOf RhsExpr.Readable args)
    (hne : args ≠ []) {space : List Char} (hspace : space = [] ∨ space = [' ']) :
    splitArguments {} space (", ".toList.intercalate (RhsExpr.texts args)) =
      RhsExpr.texts args := by
  induction args generalizing space with
  | nil => exact absurd rfl hne
  | cons arg args ih =>
    have htrim : trimAscii (space ++ arg.text) = arg.text := by
      have htight := (arg.level_tight h.1).2.trim
      rcases hspace with rfl | rfl
      · exact htight
      · exact (trimAscii_cons_space arg.text).trans htight
    cases args with
    | nil =>
      have hnone := RhsExpr.passed_comma h.1 space []
      rw [List.append_nil] at hnone
      show splitArguments {} space (", ".toList.intercalate [arg.text]) = [arg.text]
      rw [List.intercalate_singleton, splitArguments_of_none hnone, htrim]
    | cons arg' args =>
      have hsome := RhsExpr.passed_comma h.1 space
        (',' :: ' ' :: ", ".toList.intercalate (RhsExpr.texts (arg' :: args)))
      rw [splitAtTop_cons_of_wanted rfl rfl] at hsome
      show splitArguments {} space
        (", ".toList.intercalate (arg.text :: arg'.text :: RhsExpr.texts args)) = _
      rw [List.intercalate_cons_cons, List.append_assoc]
      refine (splitArguments_of_some (fun _ ↦ rfl) hsome).trans ?_
      rw [htrim]
      -- the space behind the comma goes to the next argument
      exact congrArg (arg.text :: ·) (ih h.2 (List.cons_ne_nil _ _) (.inr rfl))

/-! ### Calls -/

section Calls

variable {text rest : List Char}

theorem parseFunctionCall_eq_none
    (h : hasWrappingParentheses (text.dropWhile isNameLetter) = false) :
    parseFunctionCall text = none := by
  unfold parseFunctionCall
  split
  · rfl
  · split
    · dsimp only
      rw [h]
      rfl
    · rfl

/-- Behind the letters of a name there is no parenthesis. -/
theorem not_wrapping_dropWhile (htext : ∀ c ∈ text, isMark c = false)
    (hrest : ∀ c ∈ rest.head?, isMark c = false ∧ isNameLetter c = false) :
    hasWrappingParentheses ((text ++ rest).dropWhile isNameLetter) = false := by
  induction text with
  | nil =>
    cases rest with
    | nil => rfl
    | cons c rest =>
      obtain ⟨hmark, hletter⟩ := hrest c rfl
      rw [List.nil_append, List.dropWhile_cons_of_neg (Bool.eq_false_iff.mp hletter)]
      exact not_wrapping_of_head hmark rest
  | cons c text ih =>
    obtain ⟨hmark, htext⟩ := List.forall_mem_cons.mp htext
    by_cases hletter : isNameLetter c = true
    · rw [List.cons_append, List.dropWhile_cons_of_pos hletter]
      exact ih htext
    · rw [List.cons_append, List.dropWhile_cons_of_neg hletter]
      exact not_wrapping_of_head hmark (text ++ rest)

theorem takeWhile_name {name : List Char} (h : IsNameText name) (tail : List Char) :
    (name ++ '(' :: tail).takeWhile isNameLetter = name ∧
      (name ++ '(' :: tail).dropWhile isNameLetter = '(' :: tail := by
  rw [List.takeWhile_append_of_pos h.letters, List.dropWhile_append_of_pos h.letters,
    List.takeWhile_cons_of_neg (by decide), List.dropWhile_cons_of_neg (by decide), List.append_nil]
  exact ⟨rfl, rfl⟩

/-- A name with parentheses behind it is a call. -/
theorem parseFunctionCall_name {name inner : List Char} (h : IsNameText name)
    (hinner : Level inner) : parseFunctionCall (name ++ '(' :: (inner ++ [')'])) =
      some (String.ofList name, splitArguments {} [] inner) := by
  obtain ⟨htake, hdrop⟩ := takeWhile_name h (inner ++ [')'])
  obtain ⟨c, tail, hname, hc⟩ := h.exists_cons
  rw [hname] at htake hdrop ⊢
  show (if isNameStart c = true then _ else none) = _
  rw [if_pos hc, htake, hdrop, ← List.cons_append, if_pos hinner.hasWrappingParentheses_pair]
  simp

theorem IsWordText.no_call (h : IsWordText text)
    (hrest : ∀ c ∈ rest.head?, isMark c = false ∧ isNameLetter c = false) :
    parseFunctionCall (text ++ rest) = none :=
  parseFunctionCall_eq_none
    (not_wrapping_dropWhile (fun c hc ↦ (isWordLetter_plain (h.letters c hc)).1) hrest)

theorem IsNumberText.no_call (h : IsNumberText text)
    (hrest : ∀ c ∈ rest.head?, isMark c = false ∧ isNameLetter c = false) :
    parseFunctionCall (text ++ rest) = none := by
  rcases h with h | ⟨digits, rfl, -⟩
  · exact h.no_call hrest
  · exact parseFunctionCall_of_not rfl _

/-- A term with an operator behind it is no call. -/
theorem RhsExpr.no_call {term : RhsExpr} (h : term.Each Readable) (hterm : term.IsTerm) :
    parseFunctionCall (term.text ++ ' ' :: rest) = none := by
  have hspace : ∀ c ∈ (' ' :: rest).head?, isMark c = false ∧ isNameLetter c = false := by
    rintro c ⟨⟩
    exact ⟨rfl, rfl⟩
  cases term with
  | ternary => exact absurd hterm not_false
  | binary => exact absurd hterm not_false
  | paren expr => exact parseFunctionCall_of_not rfl _
  | path word fields => exact IsWordText.no_call h hspace
  | number token => exact IsNumberText.no_call h hspace
  | call name args =>
    rw [RhsExpr.text]
    unfold callText
    split
    · exact parseFunctionCall_of_not rfl _
    · have hinner := @level_args name args h ", ".toList (.of_plain (forall_mem_of_all rfl))
      refine parseFunctionCall_eq_none ?_
      rw [List.append_assoc, List.append_assoc]
      show hasWrappingParentheses ((storedName name ++ '(' :: _).dropWhile isNameLetter) = false
      rw [(takeWhile_name h.1.stored _).2]
      have hpair := hinner.hasWrappingParentheses_pair_append (List.cons_ne_nil ' ' rest)
      simpa using hpair
  | string letters => exact parseFunctionCall_of_not rfl _

end Calls

/-! ### How a text is read -/

section Reading

variable {fuel : ℕ} {expression text inner name lhs rhs rest : List Char} {c : Char}
  {term : RhsExpr}

theorem readText_nil : (readText fuel []).tokens = [] := by
  cases fuel <;> rfl

theorem readText_paren (htrim : trimAscii expression = '(' :: inner ++ [')'])
    (hinner : Level inner) : readText (fuel + 1) expression = .paren (readText fuel inner) := by
  rw [readText]
  simp only [htrim, hinner.hasWrappingParentheses_pair]
  simp

/-- A text with a letter that is none of `pi`. -/
theorem ne_pi_of_mem (hc : c ∈ text) (hne : c ≠ 'p' ∧ c ≠ 'i') : text ≠ ['p', 'i'] := by
  rintro rfl
  rcases List.mem_cons.mp hc with rfl | hc
  · exact hne.1 rfl
  · exact hne.2 (List.mem_singleton.mp hc)

theorem readText_call (htrim : trimAscii expression = name ++ '(' :: (inner ++ [')']))
    (hname : IsNameText name) (hinner : Level inner) : readText (fuel + 1) expression =
      .call (String.ofList name) ((splitArguments {} [] inner).map (readText fuel)) := by
  have hpi : name ++ '(' :: (inner ++ [')']) ≠ ['p', 'i'] :=
    @ne_pi_of_mem _ '(' (List.mem_append_right _ List.mem_cons_self) (by decide)
  have hcall := parseFunctionCall_name hname hinner
  have hwraps : hasWrappingParentheses (name ++ '(' :: (inner ++ [')'])) = false := by
    obtain ⟨c, tail, hcons, -⟩ := hname.exists_cons
    have hc := hname.word.letters c (by rw [hcons]; exact List.mem_cons_self)
    rw [hcons]
    exact not_wrapping_of_head (isWordLetter_plain hc).1 _
  rw [readText]
  simp only [htrim, hwraps, if_neg hpi, hcall]
  simp

/-- A term with an operator behind it is split. -/
theorem readText_split (h : term.Each RhsExpr.Readable) (hterm : term.IsTerm)
    (htrim : trimAscii expression = term.text ++ ' ' :: rest)
    (hsplit : findTopLevelArithmetic (term.text ++ ' ' :: rest) = some (lhs, c, rhs)) :
    readText (fuel + 1) expression = .split (readText fuel lhs) c (readText fuel rhs) := by
  have hpi : term.text ++ ' ' :: rest ≠ ['p', 'i'] :=
    @ne_pi_of_mem _ ' ' (List.mem_append_right _ List.mem_cons_self) (by decide)
  have hwraps := @RhsExpr.not_wrapping (' ' :: rest) term h hterm (List.cons_ne_nil _ _)
  have hcall := @RhsExpr.no_call rest term h hterm
  rw [readText]
  simp only [htrim, hwraps, if_neg hpi, hcall, hsplit]
  simp

theorem readText_atom (htrim : trimAscii expression = text) (hne : text ≠ [])
    (hwraps : hasWrappingParentheses text = false) (hcall : parseFunctionCall text = none)
    (hsplit : findTopLevelArithmetic text = none) :
    readText (fuel + 1) expression = .atom text := by
  rw [readText]
  simp only [htrim, if_neg hne, hwraps, hcall, hsplit]
  simp

/-! ### Terms are read -/

theorem wantedOperator_letters (pass : ℕ) {c : Char} (hc : isWordLetter c = true)
    (before : List Char) : wantedOperator pass before c = false :=
  wantedOperator_of_not ((isWordLetter_plain hc).2.2.1 pass)

theorem atomToken_word (htext : ∀ c ∈ text.head?, isMark c = false) :
    atomToken text = .word text := by
  unfold atomToken
  rw [if_neg]
  rintro (⟨hhead, -⟩ | ⟨hhead, -⟩) <;> cases htext _ hhead

theorem atomToken_string (letters : List Char) :
    atomToken ('"' :: letters ++ ['"']) = .string letters := by
  unfold atomToken
  rw [if_pos (.inl ⟨rfl, List.getLast?_concat⟩)]
  simp

/-- A term on its own has no operator. -/
theorem RhsExpr.findTopLevelArithmetic_term (h : term.Each Readable) (hterm : term.IsTerm) :
    findTopLevelArithmetic term.text = none := by
  have hpass : ∀ pass, wantedOperator pass [] '-' = false →
      splitAtTop (wantedOperator pass) {} [] term.text = none := by
    intro pass hsign
    have hnone := @RhsExpr.passed (wantedOperator pass) [] [] term h hterm
      (fun _ hc ↦ wantedOperator_letters pass hc) fun _ ↦ hsign
    rwa [List.append_nil] at hnone
  rw [findTopLevelArithmetic, hpass 0 rfl, hpass 1 rfl]
  rfl

/-- What is read in the flat texts that are shorter than a bound. -/
def Reads (fuel : ℕ) : Prop :=
  ∀ (f : FlatText) (expression : List Char), trimAscii expression = f.text →
    f.text.length < fuel → AgreeIff f.Steady (readText fuel expression).tokens f.tokens

theorem AgreeIff.parenthesised {p : Prop} {l l' : List TextToken} (h : AgreeIff p l l') :
    AgreeIff p (RulesForge.parenthesised l) (RulesForge.parenthesised l') :=
  ((h.append (.refl _)).cons _).congr (iff_of_eq (and_true p))

theorem length_le_intercalate (separator : List Char) {texts : List (List Char)}
    (htext : text ∈ texts) : text.length ≤ (separator.intercalate texts).length := by
  induction texts with
  | nil => contradiction
  | cons text' texts ih =>
    cases texts with
    | nil =>
      rw [List.mem_singleton.mp htext, List.intercalate_singleton]
    | cons text'' texts =>
      rw [List.intercalate_cons_cons, List.length_append, List.length_append]
      rcases List.mem_cons.mp htext with rfl | htext
      · omega
      · have hle := ih htext
        omega

section Terms

variable (hread : Reads fuel)
include hread

theorem Reads.expr {expr : RhsExpr} (h : expr.Each RhsExpr.Readable)
    (htrim : trimAscii expression = expr.text) (hfuel : expr.text.length < fuel) :
    AgreeIff (expr.Each RhsExpr.Steady) (readText fuel expression).tokens expr.storedTokens := by
  obtain ⟨f, hf, htokens, hsteady, -⟩ := expr.exists_flat h
  rw [← hf] at htrim hfuel
  rw [← htokens]
  exact (hread f expression htrim hfuel).congr hsteady

/-- The arguments of a call are read one by one. -/
theorem Reads.args {args : List RhsExpr} (h : EachOf RhsExpr.Readable args)
    (hfuel : ∀ text ∈ RhsExpr.texts args, text.length < fuel) (separator : TextToken) :
    AgreeIff (EachOf RhsExpr.Steady args)
      (joinTokens separator (TextReading.tokensOf ((RhsExpr.texts args).map (readText fuel))))
      (joinTokens separator (storedTokensOf args)) := by
  induction args with
  | nil => exact .refl []
  | cons arg args ih =>
    obtain ⟨harg, hargs⟩ := List.forall_mem_cons.mp hfuel
    have hfirst := hread.expr h.1 (arg.level_tight h.1).2.trim harg
    cases args with
    | nil => exact hfirst.congr (iff_of_eq (and_true _)).symm
    | cons arg' args => exact hfirst.append ((ih h.2 hargs).cons separator)

theorem Reads.call {args : List RhsExpr} (h : (RhsExpr.call name args).Each RhsExpr.Readable)
    (htrim : trimAscii expression = callText name (RhsExpr.texts args))
    (hfuel : (callText name (RhsExpr.texts args)).length < fuel + 1) :
    AgreeIff (EachOf RhsExpr.Steady args) (readText (fuel + 1) expression).tokens
      (callTokens name (storedTokensOf args)) := by
  unfold callText at htrim hfuel
  unfold callTokens
  split
  · rename_i hname
    rw [if_pos hname] at htrim hfuel
    rw [readText_paren htrim (level_args h (.of_plain (forall_mem_of_all rfl)))]
    refine AgreeIff.parenthesised ?_
    by_cases hargs : args = []
    · rw [hargs]
      show AgreeIff True (readText fuel []).tokens []
      rw [readText_nil]
      exact .refl []
    · -- the arguments are a sum
      obtain ⟨f, hf, htokens, hsteady⟩ := exists_flat_sum h.2 hargs
      rw [← htokens, ← hsteady]
      rw [← hf] at hfuel ⊢
      refine hread f _ f.tight.trim ?_
      simp only [List.length_cons, List.length_append] at hfuel
      omega
  · rename_i hname
    rw [if_neg hname] at htrim hfuel
    have hinner := @level_args name args h ", ".toList (.of_plain (forall_mem_of_all rfl))
    rw [List.append_assoc] at htrim hfuel
    rw [readText_call htrim h.1.stored hinner, TextReading.tokens, String.toList_ofList]
    refine AgreeIff.cons (AgreeIff.parenthesised ?_) _
    by_cases hargs : args = []
    · rw [hargs]
      show AgreeIff True (joinTokens _ [(readText fuel []).tokens]) []
      rw [readText_nil]
      exact .refl []
    · rw [splitArguments_texts h.2 hargs (.inl rfl)]
      refine hread.args h.2 (fun text htext ↦ ?_) _
      have hle := length_le_intercalate ", ".toList htext
      simp only [List.length_append, List.length_cons] at hfuel
      omega

/-- **A term is read** as its tokens, if the terms in it are. -/
theorem Reads.single (h : term.Each RhsExpr.Readable) (hterm : term.IsTerm)
    (htrim : trimAscii expression = term.text) (hfuel : term.text.length < fuel + 1) :
    AgreeIff (term.Each RhsExpr.Steady) (readText (fuel + 1) expression).tokens
      term.storedTokens := by
  have hsplit := RhsExpr.findTopLevelArithmetic_term h hterm
  -- a word is read as it stands
  have hword : ∀ {text : List Char}, trimAscii expression = text → text ≠ [] →
      (∀ c ∈ text.head?, isMark c = false) → parseFunctionCall text = none →
      findTopLevelArithmetic text = none →
      AgreeIff True (readText (fuel + 1) expression).tokens [.word text] := by
    intro text htrim hne hhead hcall hsplit
    obtain ⟨c, tail, rfl⟩ := List.exists_cons_of_ne_nil hne
    rw [readText_atom htrim hne (not_wrapping_of_head (hhead c rfl) tail) hcall hsplit,
      TextReading.tokens, atomToken_word hhead]
    exact .refl _
  cases term with
  | ternary => exact absurd hterm not_false
  | binary => exact absurd hterm not_false
  | paren expr =>
    obtain ⟨hlevel, htight⟩ := expr.level_tight h.2
    rw [RhsExpr.text] at htrim hfuel
    rw [readText_paren htrim hlevel]
    refine (AgreeIff.parenthesised (hread.expr h.2 htight.trim ?_)).congr
      (iff_of_eq (true_and _)).symm
    simp only [List.length_cons, List.length_append] at hfuel
    omega
  | path word fields =>
    have hletters : IsWordText (word.text ++ fields.flatMap ('.' :: ·)) := h
    have hcall := @IsWordText.no_call _ [] hletters nofun
    rw [List.append_nil] at hcall
    exact hword htrim hletters.ne_nil (fun c hc ↦
      (isWordLetter_plain (hletters.letters c (List.mem_of_mem_head? hc))).1) hcall hsplit
  | number token =>
    have hnumber : IsNumberText token.text := h
    have hcall := @IsNumberText.no_call _ [] hnumber nofun
    rw [List.append_nil] at hcall
    refine hword htrim ?_ (fun c hc ↦ ?_) hcall hsplit
    · exact ((RhsExpr.number token).level_tight h).2.ne_nil
    · rcases hnumber with hnumber | ⟨digits, htext, -⟩
      · exact (isWordLetter_plain (hnumber.letters c (List.mem_of_mem_head? hc))).1
      · rw [htext] at hc
        cases hc
        rfl
  | call name args => exact (hread.call h htrim hfuel).congr (iff_of_eq (true_and _)).symm
  | string letters =>
    have hwraps : hasWrappingParentheses ('"' :: letters ++ ['"']) = false := by
      refine Bool.eq_false_iff.mpr fun hwraps ↦ ?_
      have hopen : some '"' = some '(' := (ends_of_hasWrappingParentheses hwraps).1
      cases hopen
    rw [RhsExpr.text] at htrim hsplit
    rw [readText_atom htrim (List.cons_ne_nil _ _) hwraps (parseFunctionCall_of_not rfl _) hsplit,
      TextReading.tokens, atomToken_string]
    exact .refl _

end Terms

end Reading

/-! ### Where a flat text is split -/

namespace FlatText

/-- A flat text is put together from the part before an item and the part from its term on. -/
theorem exists_join {f : FlatText} {items rest : List RhsItem} {item : RhsItem}
    (h : f.items = items ++ item :: rest) :
    ∃ (lhs rhs : FlatText) (hop : isOperator 0 item.op = true ∨ isOperator 1 item.op = true),
      lhs.items = items ∧ rhs.first = item.term ∧ rhs.items = rest ∧ f = lhs.join rhs hop := by
  have hitems := f.itemsReadable
  rw [h, List.forall_mem_append, List.forall_mem_cons] at hitems
  obtain ⟨hbefore, hitem, hrest⟩ := hitems
  refine ⟨⟨f.first, items, f.isTerm, f.readable, hbefore⟩,
    ⟨item.term, rest, hitem.isTerm, hitem.term, hrest⟩, hitem.op, rfl, rfl, rfl, ?_⟩
  obtain ⟨first, items', isTerm, readable, itemsReadable⟩ := f
  obtain rfl : items' = items ++ item :: rest := h
  rfl

end FlatText

/-- The first item that is not multiplied, if there is one. -/
theorem exists_first_not {items : List RhsItem} (h : ¬∀ item ∈ items, item.Multiplied) :
    ∃ before item after, items = before ++ item :: after ∧
      (∀ item' ∈ before, item'.Multiplied) ∧ ¬item.Multiplied := by
  induction items with
  | nil => exact absurd (fun _ hitem ↦ absurd hitem List.not_mem_nil) h
  | cons item items ih =>
    by_cases hitem : item.Multiplied
    · have hrest : ¬∀ item' ∈ items, item'.Multiplied := fun hall ↦
        h (List.forall_mem_cons.mpr ⟨hitem, hall⟩)
      obtain ⟨before, item', after, rfl, hbefore, hitem'⟩ := ih hrest
      exact ⟨item :: before, item', after, rfl, List.forall_mem_cons.mpr ⟨hitem, hbefore⟩, hitem'⟩
    · exact ⟨[], item, items, rfl, nofun, hitem⟩

theorem isOperator_exclusive {c : Char} (h : isOperator 1 c = true) : isOperator 0 c = false := by
  have hsign : c = '*' ∨ c = '/' := by simpa [isOperator] using h
  rcases hsign with rfl | rfl <;> rfl

section Splits

variable {f : FlatText} {rest : List Char} {c : Char}

/-- The first pass goes over a product. -/
theorem FlatText.passed_product (hmultiplied : ∀ item ∈ f.items, item.Multiplied)
    (rest : List Char) : splitAtTop (wantedOperator 0) {} [] (f.text ++ rest) =
      splitAtTop (wantedOperator 0) {} f.text rest := by
  have hletters : ∀ c, isWordLetter c = true → ∀ before, wantedOperator 0 before c = false :=
    fun c hc ↦ wantedOperator_letters 0 hc
  have hfirst := @RhsExpr.passed (wantedOperator 0) [] (itemsText f.items ++ rest) f.first
    f.readable f.isTerm hletters fun _ ↦ rfl
  have hitems := @passed_items (wantedOperator 0) f.first.text rest hletters
    (fun _ ↦ wantedOperator_of_not rfl) f.items f.itemsReadable fun item hitem ↦
      ⟨fun _ ↦ wantedOperator_of_not (isOperator_exclusive (hmultiplied item hitem).1),
        fun hsigned ↦ absurd hsigned (hmultiplied item hitem).2⟩
  rw [text, List.append_assoc, hfirst]
  exact hitems

/-- An operator of the first pass behind a product. -/
theorem FlatText.find_additive (hmultiplied : ∀ item ∈ f.items, item.Multiplied)
    (hc : isOperator 0 c = true) :
    findTopLevelArithmetic (f.text ++ ' ' :: c :: rest) = some (f.text ++ [' '], c, rest) := by
  have hmark := (isOperator_plain hc).1
  have htop : Scan.atTop {} c = true := by rw [Scan.atTop, hmark]; rfl
  have hsplit := f.passed_product hmultiplied (' ' :: c :: rest)
  rw [splitAtTop_cons_of_not rfl] at hsplit
  have hspace : Scan.next {} ' ' = {} := rfl
  rw [hspace, splitAtTop_cons_of_wanted htop (wantedOperator_after_space f.text hc)] at hsplit
  rw [findTopLevelArithmetic, hsplit]
  rfl

/-- A sign behind an operator of the second pass. -/
theorem FlatText.find_sign (hmultiplied : ∀ item ∈ f.items, item.Multiplied)
    (hc : isOperator 1 c = true) :
    findTopLevelArithmetic (f.text ++ ' ' :: c :: ' ' :: '-' :: rest) =
      some (f.text ++ [' ', c, ' '], '-', rest) := by
  have hplain := @splitAtTop_plain (wantedOperator 0) f.text [' ', c, ' '] ('-' :: rest) 0
    (by
      intro d hd
      simp only [List.mem_cons, List.not_mem_nil, or_false] at hd
      rcases hd with rfl | rfl | rfl
      · rfl
      · exact (isOperator_plain hc).1
      · rfl)
    (by
      intro d hd before
      simp only [List.mem_cons, List.not_mem_nil, or_false] at hd
      rcases hd with rfl | rfl | rfl
      · exact wantedOperator_of_not rfl
      · exact wantedOperator_of_not (isOperator_exclusive hc)
      · exact wantedOperator_of_not rfl)
  have hsplit := (f.passed_product hmultiplied (' ' :: c :: ' ' :: '-' :: rest)).trans hplain
  have hwanted := @wantedOperator_after_space 0 (f.text ++ [' ', c]) '-' rfl
  rw [List.append_assoc] at hwanted
  have hstop : splitAtTop (wantedOperator 0) {} (f.text ++ [' ', c, ' ']) ('-' :: rest) =
      some (f.text ++ [' ', c, ' '], '-', rest) := splitAtTop_cons_of_wanted rfl hwanted
  rw [findTopLevelArithmetic, hsplit.trans hstop]
  rfl

/-- The second pass, where the first finds nothing, finds the first operator. -/
theorem RhsExpr.find_multiplicative {term : RhsExpr} (h : term.Each Readable)
    (hterm : term.IsTerm) (hc : isOperator 1 c = true)
    (hnone : splitAtTop (wantedOperator 0) {} [] (term.text ++ ' ' :: c :: rest) = none) :
    findTopLevelArithmetic (term.text ++ ' ' :: c :: rest) =
      some (term.text ++ [' '], c, rest) := by
  have hmark := (isOperator_plain hc).1
  have htop : Scan.atTop {} c = true := by rw [Scan.atTop, hmark]; rfl
  have hsplit := @RhsExpr.passed (wantedOperator 1) [] (' ' :: c :: rest) term h hterm
    (fun c hc ↦ wantedOperator_letters 1 hc) fun _ ↦ rfl
  have hspace : Scan.next {} ' ' = {} := rfl
  rw [splitAtTop_cons_of_not rfl, hspace, splitAtTop_cons_of_wanted htop
    (wantedOperator_after_space _ hc)] at hsplit
  rw [findTopLevelArithmetic, hnone]
  exact hsplit

end Splits

/-! ### Flat texts are read -/

/-- What is read in the shorter products with an operator behind them. -/
def ReadsOpen (fuel : ℕ) : Prop :=
  ∀ (f : FlatText) (op : Char) (expression : List Char), (∀ item ∈ f.items, item.Multiplied) →
    isOperator 1 op = true → trimAscii expression = f.text ++ [' ', op] →
    f.text.length + 2 < fuel →
      AgreeIff f.Steady (readText fuel expression).tokens (f.tokens ++ [.symbol [op]])

section Readings

variable {fuel : ℕ} {f : FlatText} {expression : List Char}

theorem AgreeIff.split {p q : Prop} {lhs rhs : TextReading} {l l' : List TextToken} {c : Char}
    (h : AgreeIff p lhs.tokens l) (h' : AgreeIff q rhs.tokens l') :
    AgreeIff (p ∧ q) (TextReading.split lhs c rhs).tokens (l ++ .symbol [c] :: l') :=
  h.append (h'.cons _)

theorem FlatText.eq_first (f : FlatText) (h : f.items = []) :
    f.text = f.first.text ∧ f.tokens = f.first.storedTokens ∧
      (f.Steady ↔ f.first.Each RhsExpr.Steady) := by
  unfold text tokens Steady
  rw [h]
  exact ⟨List.append_nil _, List.append_nil _, And.left, fun hsteady ↦ ⟨hsteady, nofun⟩⟩

/-- The first term of a text, in front of an operator. -/
theorem Reads.first (hread : Reads fuel) (f : FlatText) (hfuel : f.first.text.length < fuel) :
    AgreeIff (f.first.Each RhsExpr.Steady) (readText fuel (f.first.text ++ [' '])).tokens
      f.first.storedTokens :=
  hread.expr f.readable ((trimAscii_concat_space _).trans (f.first.level_tight f.readable).2.trim)
    hfuel

theorem ReadsOpen.succ (hread : Reads fuel) (hopen : ReadsOpen fuel) : ReadsOpen (fuel + 1) := by
  intro f op expression hmultiplied hop htrim hfuel
  have hnone : splitAtTop (wantedOperator 0) {} [] (f.text ++ [' ', op]) = none := by
    rw [f.passed_product hmultiplied, splitAtTop_cons_of_not rfl, splitAtTop_cons_of_not (by
      rw [wantedOperator_of_not (isOperator_exclusive hop), Bool.and_false])]
    rfl
  cases hitems : f.items with
  | nil =>
    obtain ⟨htext, htokens, hsteady⟩ := f.eq_first hitems
    rw [htext] at htrim hfuel hnone
    rw [htokens, readText_split f.readable f.isTerm htrim
      (RhsExpr.find_multiplicative f.readable f.isTerm hop hnone), TextReading.tokens, readText_nil]
    have hfirst := hread.first f (by omega)
    exact (hfirst.append (.refl _)).congr ((iff_of_eq (and_true _)).trans hsteady.symm)
  | cons item items =>
    obtain ⟨lhs, rhs, hop', hlhs, hfirst, hrhs, rfl⟩ := @FlatText.exists_join f [] items item hitems
    have hitem : item.Multiplied := hmultiplied item (by rw [hitems]; exact List.mem_cons_self)
    have hrest : ∀ item' ∈ rhs.items, item'.Multiplied := fun item' hitem' ↦ hmultiplied item' (by
      rw [hitems, ← hrhs]
      exact List.mem_cons_of_mem item hitem')
    obtain ⟨htext, htokens, hsteady⟩ := lhs.eq_first hlhs
    have hwhole : (lhs.join rhs hop').text ++ [' ', op] =
        lhs.first.text ++ ' ' :: item.op :: (' ' :: rhs.text ++ [' ', op]) := by
      rw [lhs.text_join, htext]
      simp
    rw [hwhole] at htrim hnone
    rw [lhs.text_join, htext] at hfuel
    simp only [List.length_append, List.length_cons] at hfuel
    rw [readText_split lhs.readable lhs.isTerm htrim
      (RhsExpr.find_multiplicative lhs.readable lhs.isTerm hitem.1 hnone), lhs.tokens_join, htokens,
      List.append_assoc]
    -- the rest of the product has the open operator behind it
    have htight : Tight (rhs.text ++ [' '] ++ [op]) :=
      rhs.tight.append (.of_forall (List.cons_ne_nil _ _) fun c hc ↦ by
        rw [List.mem_singleton.mp hc]
        exact (isOperator_plain hop).2.1) [' ']
    have htail := hopen rhs op (' ' :: rhs.text ++ [' ', op]) hrest hop
      ((trimAscii_cons_space _).trans (by simpa using htight.trim)) (by omega)
    refine ((hread.first lhs (by omega)).split htail).congr ?_
    rw [lhs.steady_join, hsteady, hfirst]
    exact and_congr_right fun _ ↦ (and_iff_right fun _ ↦ hitem.2).symm

/-- A product is read from its first operator. -/
theorem Reads.product (hread : Reads fuel) (hmultiplied : ∀ item ∈ f.items, item.Multiplied)
    (htrim : trimAscii expression = f.text) (hfuel : f.text.length < fuel + 1) :
    AgreeIff f.Steady (readText (fuel + 1) expression).tokens f.tokens := by
  have hnone := f.passed_product hmultiplied []
  rw [List.append_nil] at hnone
  cases hitems : f.items with
  | nil =>
    obtain ⟨htext, htokens, hsteady⟩ := f.eq_first hitems
    rw [htext] at htrim hfuel
    rw [htokens]
    exact (hread.single f.readable f.isTerm htrim hfuel).congr hsteady.symm
  | cons item items =>
    obtain ⟨lhs, rhs, hop, hlhs, hfirst, -, rfl⟩ := @FlatText.exists_join f [] items item hitems
    have hitem : item.Multiplied := hmultiplied item (by rw [hitems]; exact List.mem_cons_self)
    obtain ⟨htext, htokens, hsteady⟩ := lhs.eq_first hlhs
    rw [lhs.text_join, htext] at htrim hfuel hnone
    simp only [List.length_append, List.length_cons] at hfuel
    rw [readText_split lhs.readable lhs.isTerm htrim
      (RhsExpr.find_multiplicative lhs.readable lhs.isTerm hitem.1 hnone), lhs.tokens_join, htokens]
    have hrest := hread rhs (' ' :: rhs.text) ((trimAscii_cons_space _).trans rhs.tight.trim)
      (by omega)
    refine ((hread.first lhs (by omega)).split hrest).congr ?_
    rw [lhs.steady_join, hsteady, hfirst]
    exact and_congr_right fun _ ↦ (and_iff_right fun _ ↦ hitem.2).symm

/-- A term with a sign is a number. -/
theorem RhsExpr.Signed.exists_number {term : RhsExpr} (h : term.Signed) (hterm : term.IsTerm) :
    ∃ digits, term.text = '-' :: digits ∧ term.storedTokens = [.word ('-' :: digits)] := by
  cases term with
  | number token =>
    obtain ⟨digits, hdigits⟩ := List.head?_eq_some_iff.mp h
    rw [RhsExpr.text, storedTokens, hdigits]
    exact ⟨digits, rfl, rfl⟩
  | binary => exact absurd hterm not_false
  | ternary | paren | path | call | string => exact absurd h not_false

theorem Reads.succ (hread : Reads fuel) (hopen : ReadsOpen fuel) : Reads (fuel + 1) := by
  intro f expression htrim hfuel
  by_cases hmultiplied : ∀ item ∈ f.items, item.Multiplied
  · exact hread.product hmultiplied htrim hfuel
  obtain ⟨before, item, after, hitems, hbefore, hitem⟩ := exists_first_not hmultiplied
  obtain ⟨lhs, rhs, hop, hlhs, hfirst, -, rfl⟩ := FlatText.exists_join hitems
  rw [← hlhs] at hbefore
  rw [lhs.text_join] at htrim hfuel
  simp only [List.length_append, List.length_cons] at hfuel
  -- the terms in front of the operator begin with a term and a space
  have hshape : ∀ rest, ∃ tail, lhs.text ++ ' ' :: rest = lhs.first.text ++ ' ' :: tail := by
    intro rest
    rw [FlatText.text]
    cases lhs.items with
    | nil => exact ⟨rest, by rw [itemsText, List.flatMap_nil, List.append_nil]⟩
    | cons item' items =>
      exact ⟨item'.op :: ' ' :: (item'.term.text ++ (itemsText items ++ ' ' :: rest)), by
        simp [itemsText]⟩
  have hsplit : ∀ {lhs' rhs' : List Char} {c : Char},
      findTopLevelArithmetic (lhs.text ++ ' ' :: item.op :: ' ' :: rhs.text) =
        some (lhs', c, rhs') →
      readText (fuel + 1) expression = .split (readText fuel lhs') c (readText fuel rhs') := by
    intro lhs' rhs' c hfind
    obtain ⟨tail, htail⟩ := hshape (item.op :: ' ' :: rhs.text)
    rw [htail] at htrim hfind
    exact readText_split lhs.readable lhs.isTerm htrim hfind
  rw [lhs.tokens_join]
  by_cases hadditive : isOperator 0 item.op = true
  · -- the first operator of a sum
    have hnot : ¬isOperator 1 item.op = true := fun h ↦
      Bool.noConfusion ((isOperator_exclusive h).symm.trans hadditive)
    rw [hsplit (FlatText.find_additive hbefore hadditive)]
    have hleft := hread lhs (lhs.text ++ [' '])
      ((trimAscii_concat_space _).trans lhs.tight.trim) (by omega)
    have hright := hread rhs (' ' :: rhs.text) ((trimAscii_cons_space _).trans rhs.tight.trim)
      (by omega)
    refine (hleft.split hright).congr ?_
    rw [lhs.steady_join]
    exact and_congr_right fun _ ↦ (and_iff_right fun h ↦ absurd h hnot).symm
  · -- a sign behind an operator of a product is taken for one
    have hproduct : isOperator 1 item.op = true := hop.resolve_left hadditive
    have hsigned : rhs.first.Signed := by
      rw [hfirst]
      exact by_contra fun hsigned ↦ hitem ⟨hproduct, hsigned⟩
    obtain ⟨digits, htext, htokens⟩ := hsigned.exists_number rhs.isTerm
    have hrhs : rhs.text = '-' :: (digits ++ itemsText rhs.items) := by
      rw [FlatText.text, htext]
      rfl
    rw [hrhs] at hsplit
    rw [hsplit (FlatText.find_sign hbefore hproduct)]
    have htrimLhs : trimAscii (lhs.text ++ [' ', item.op, ' ']) = lhs.text ++ [' ', item.op] := by
      have htight : Tight (lhs.text ++ [' '] ++ [item.op]) :=
        lhs.tight.append (.of_forall (List.cons_ne_nil _ _) fun c hc ↦ by
          rw [List.mem_singleton.mp hc]
          exact (isOperator_plain hproduct).2.1) [' ']
      have hspace := (trimAscii_concat_space (lhs.text ++ [' '] ++ [item.op])).trans htight.trim
      simpa using hspace
    have hleft := hopen lhs item.op _ hbefore hproduct htrimLhs (by
      rw [hrhs, List.length_cons] at hfuel
      omega)
    have hright := @AgreeIff.of_ne _ (TextToken.symbol ['-']) (.word ('-' :: digits)) nofun
      (readText fuel (digits ++ itemsText rhs.items)).tokens (itemsTokens rhs.items)
    have hall := hleft.append hright
    rw [List.append_assoc] at hall
    have hrhsTokens : rhs.tokens = .word ('-' :: digits) :: itemsTokens rhs.items := by
      rw [FlatText.tokens, htokens]
      rfl
    rw [hrhsTokens]
    refine hall.congr ?_
    rw [lhs.steady_join]
    tauto

/-- **A flat text is read** as its tokens if and only if it is steady. -/
theorem reads (fuel : ℕ) : Reads fuel ∧ ReadsOpen fuel := by
  induction fuel with
  | zero =>
    exact ⟨fun _ _ _ hfuel ↦ absurd hfuel (Nat.not_lt_zero _),
      fun _ _ _ _ _ _ hfuel ↦ absurd hfuel (Nat.not_lt_zero _)⟩
  | succ fuel ih => exact ⟨ih.1.succ ih.2, .succ ih.1 ih.2⟩

end Readings

end RulesForge
