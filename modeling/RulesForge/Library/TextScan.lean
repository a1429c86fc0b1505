import Mathlib.Data.List.DropRight

/-!
# Texts scanned outside of quotes and parentheses

A **scan** runs over a text from the left. It keeps whether it is inside a quoted string, where a
backslash takes the next letter with it, and how many parentheses are open. A letter is at the
top when it is outside of both, and `splitAtTop` splits a text at the first letter at the top that
is wanted, where what is wanted may depend on the text before it.

A text is **level** when it is put together from plain letters, quoted strings and pairs of
parentheses. A scan comes out of a level text as it went in, and a pair of parentheses around a
level text has nothing at the top.
-/

namespace RulesForge

/-- What is decided of each member of a list holds of them all. -/
theorem forall_mem_of_all {α : Type} {p : α → Prop} [DecidablePred p] {l : List α}
    (h : l.all (fun a ↦ decide (p a)) = true) : ∀ a ∈ l, p a :=
  fun a ha ↦ of_decide_eq_true (List.all_eq_true.mp h a ha)

/-! ### Letters and digits -/

theorem range_of_isDigit {c : Char} (h : c.isDigit = true) : 48 ≤ c.toNat ∧ c.toNat ≤ 57 :=
  ⟨of_decide_eq_true (Bool.and_eq_true_iff.mp h).1, of_decide_eq_true (Bool.and_eq_true_iff.mp h).2⟩

theorem le_toNat_of_isAlpha {c : Char} (h : c.isAlpha = true) : 65 ≤ c.toNat := by
  rcases Bool.or_eq_true_iff.mp h with hupper | hlower
  · exact (of_decide_eq_true hupper).1
  · have hlow : 97 ≤ c.toNat := of_decide_eq_true (Bool.and_eq_true_iff.mp hlower).1
    omega

theorem le_toNat_of_isAlphanum {c : Char} (h : c.isAlphanum = true) : 48 ≤ c.toNat := by
  rcases Bool.or_eq_true_iff.mp h with halpha | hdigit
  · have hle := le_toNat_of_isAlpha halpha
    omega
  · exact (range_of_isDigit hdigit).1

/-! ### Scans -/

/-- Where a scan is: the quote of the string it is in, whether the letter to come is escaped, and
the number of open parentheses. -/
structure Scan where
  quote : Option Char := none
  escaped : Bool := false
  depth : ℤ := 0
  deriving DecidableEq

/-- A quote or a parenthesis. -/
def isMark (c : Char) : Bool :=
  c = '"' || c = '\'' || c = '(' || c = ')'

namespace Scan

def next (s : Scan) (c : Char) : Scan :=
  match s.quote with
  | some quote =>
    if s.escaped then { s with escaped := false }
    else if c = '\\' then { s with escaped := true }
    else if c = quote then { s with quote := none }
    else s
  | none =>
    if c = '"' ∨ c = '\'' then { s with quote := some c }
    else if c = '(' then { s with depth := s.depth + 1 }
    else if c = ')' then { s with depth := s.depth - 1 }
    else s

/-- A letter outside of quotes and parentheses, and none of these. -/
def atTop (s : Scan) (c : Char) : Bool :=
  s.quote.isNone && decide (s.depth = 0) && !isMark c

/-- The scan after a text. -/
def run (s : Scan) (text : List Char) : Scan :=
  text.foldl next s

/-- A scan outside of quotes. -/
def atDepth (depth : ℤ) : Scan := { depth := depth }

variable {s : Scan} {c : Char} {depth : ℤ}

@[simp]
theorem run_nil : s.run [] = s := rfl

@[simp]
theorem run_cons (text : List Char) : s.run (c :: text) = (s.next c).run text := rfl

theorem run_append (text text' : List Char) : s.run (text ++ text') = (s.run text).run text' :=
  List.foldl_append

theorem next_plain (hc : isMark c = false) : (atDepth depth).next c = atDepth depth := by
  simp only [isMark, Bool.or_eq_false_iff, decide_eq_false_iff_not] at hc
  obtain ⟨⟨⟨hdouble, hsingle⟩, hopen⟩, hclose⟩ := hc
  simp [atDepth, next, hdouble, hsingle, hopen, hclose]

theorem next_open : (atDepth depth).next '(' = atDepth (depth + 1) := rfl

theorem next_close : (atDepth depth).next ')' = atDepth (depth - 1) := rfl

/-- Outside of a string nothing is escaped. -/
def Settled (s : Scan) : Prop := s.quote = none → s.escaped = false

theorem Settled.next (h : s.Settled) (c : Char) : (s.next c).Settled := by
  intro hquote
  unfold Scan.next at hquote ⊢
  cases hs : s.quote with
  | none =>
    simp only [hs] at hquote ⊢
    split_ifs <;> simp_all [Settled]
  | some quote =>
    simp only [hs] at hquote ⊢
    split_ifs at hquote ⊢ <;> simp_all

theorem Settled.run (h : s.Settled) (text : List Char) : (s.run text).Settled := by
  induction text generalizing s with
  | nil => exact h
  | cons c text ih => exact ih (h.next c)

/-- A scan that has a letter at the top is where a scan begins, and stays there. -/
theorem eq_of_atTop (h : s.Settled) (hc : s.atTop c = true) : s = {} ∧ s.next c = {} := by
  simp only [atTop, Bool.and_eq_true, Option.isNone_iff_eq_none, decide_eq_true_eq,
    Bool.not_eq_true'] at hc
  obtain ⟨⟨hquote, hdepth⟩, hmark⟩ := hc
  have hs : s = {} := by
    obtain ⟨quote, escaped, depth⟩ := s
    obtain rfl : quote = none := hquote
    obtain rfl : depth = 0 := hdepth
    obtain rfl : escaped = false := h rfl
    rfl
  refine ⟨hs, ?_⟩
  rw [hs]
  exact next_plain hmark

end Scan

/-! ### Splitting -/

/-- The text before the first letter at the top that is wanted, the letter, and the text after
it. -/
def splitAtTop (wanted : List Char → Char → Bool) :
    Scan → List Char → List Char → Option (List Char × Char × List Char)
  | _, _, [] => none
  | s, before, c :: text =>
    if s.atTop c && wanted before c then some (before, c, text)
    else splitAtTop wanted (s.next c) (before ++ [c]) text

/-- From within a first parenthesis: no parenthesis closes the outermost one before the end, where
none is open. -/
def closesAtEnd : Scan → List Char → Bool
  | s, [] => decide (s.depth = 0)
  | s, c :: text =>
    if s.quote = none ∧ c = ')' ∧ s.depth = 1 ∧ text ≠ [] then false
    else closesAtEnd (s.next c) text

/-- Whether a text is one pair of parentheses. -/
def hasWrappingParentheses (text : List Char) : Bool :=
  decide (2 ≤ text.length) && decide (text.head? = some '(') &&
    decide (text.getLast? = some ')') && closesAtEnd {} text

/-- A text that is one pair of parentheses begins and ends with them. -/
theorem ends_of_hasWrappingParentheses {text : List Char}
    (h : hasWrappingParentheses text = true) :
    text.head? = some '(' ∧ text.getLast? = some ')' := by
  simp only [hasWrappingParentheses, Bool.and_eq_true, decide_eq_true_eq] at h
  exact ⟨h.1.1.2, h.1.2⟩

/-- So there is something, or nothing, in between. -/
theorem exists_inner_of_hasWrappingParentheses {text : List Char}
    (h : hasWrappingParentheses text = true) : ∃ inner, text = '(' :: inner ++ [')'] := by
  obtain ⟨hhead, hlast⟩ := ends_of_hasWrappingParentheses h
  cases text with
  | nil => cases hhead
  | cons c tail =>
    cases hhead
    rcases List.eq_nil_or_concat tail with rfl | ⟨inner, d, rfl⟩
    · cases hlast
    · rw [List.concat_eq_append, ← List.cons_append, List.getLast?_concat] at hlast
      cases hlast
      exact ⟨inner, by simp⟩

theorem not_wrapping_of_head {c : Char} (hc : isMark c = false) (text : List Char) :
    hasWrappingParentheses (c :: text) = false := by
  refine Bool.eq_false_iff.mpr fun hwraps ↦ ?_
  have hopen : some c = some '(' := (ends_of_hasWrappingParentheses hwraps).1
  cases hopen
  exact Bool.noConfusion hc

section Splitting

variable {wanted : List Char → Char → Bool} {s : Scan} {before text rest lhs rhs : List Char}
  {c op : Char} {depth : ℤ}

/-- A letter that is wanted is where the text is split. -/
theorem splitAtTop_cons_of_wanted (htop : s.atTop c = true) (hc : wanted before c = true) :
    splitAtTop wanted s before (c :: text) = some (before, c, text) := by
  rw [splitAtTop, htop, hc]
  rfl

theorem splitAtTop_cons_of_not (hc : (s.atTop c && wanted before c) = false) :
    splitAtTop wanted s before (c :: text) = splitAtTop wanted (s.next c) (before ++ [c]) text := by
  rw [splitAtTop, hc]
  rfl

/-- Plain letters none of which is wanted are passed. -/
theorem splitAtTop_plain (hmark : ∀ c ∈ text, isMark c = false)
    (hwanted : ∀ c ∈ text, ∀ before, wanted before c = false) :
    splitAtTop wanted (.atDepth depth) before (text ++ rest) =
      splitAtTop wanted (.atDepth depth) (before ++ text) rest := by
  induction text generalizing before with
  | nil => simp
  | cons c text ih =>
    have hc : (Scan.atTop (.atDepth depth) c && wanted before c) = false := by
      rw [hwanted c List.mem_cons_self before, Bool.and_false]
    rw [List.cons_append, splitAtTop_cons_of_not hc, Scan.next_plain (hmark c List.mem_cons_self),
      ih (fun d hd ↦ hmark d (List.mem_cons_of_mem c hd))
        (fun d hd ↦ hwanted d (List.mem_cons_of_mem c hd)), List.append_assoc]
    rfl

/-- What a split returns: the parts of the text, and a letter at the top that is wanted. -/
theorem splitAtTop_eq_some (h : splitAtTop wanted s before text = some (lhs, op, rhs)) :
    ∃ passed, text = passed ++ op :: rhs ∧ lhs = before ++ passed ∧
      (s.run passed).atTop op = true ∧ wanted lhs op = true := by
  induction text generalizing s before with
  | nil => cases h
  | cons c text ih =>
    cases hc : s.atTop c && wanted before c with
    | true =>
      rw [Bool.and_eq_true] at hc
      rw [splitAtTop_cons_of_wanted hc.1 hc.2] at h
      cases h
      exact ⟨[], rfl, (List.append_nil _).symm, hc.1, hc.2⟩
    | false =>
      rw [splitAtTop_cons_of_not hc] at h
      obtain ⟨passed, rfl, rfl, htop, hop⟩ := ih h
      exact ⟨c :: passed, rfl, by simp, htop, by simpa using hop⟩

/-- Where a wanted letter stands at the top, a text is split. -/
theorem splitAtTop_isSome (htop : (s.run text).atTop c = true)
    (hc : ∀ before, wanted before c = true) :
    (splitAtTop wanted s before (text ++ c :: rest)).isSome = true := by
  induction text generalizing s before with
  | nil =>
    have htop' : s.atTop c = true := htop
    rw [List.nil_append, splitAtTop_cons_of_wanted htop' (hc before)]
    rfl
  | cons d text ih =>
    cases hd : s.atTop d && wanted before d with
    | true =>
      rw [Bool.and_eq_true] at hd
      rw [List.cons_append, splitAtTop_cons_of_wanted hd.1 hd.2]
      rfl
    | false =>
      rw [List.cons_append, splitAtTop_cons_of_not hd]
      exact ih htop

end Splitting

/-! ### Level texts -/

/-- Plain letters, quoted strings and pairs of parentheses. -/
inductive Level : List Char → Prop
  | nil : Level []
  | plain {c : Char} {text : List Char} : isMark c = false → Level text → Level (c :: text)
  | quoted {body text : List Char} : (∀ c ∈ body, c ≠ '"' ∧ c ≠ '\\') → Level text →
      Level ('"' :: body ++ '"' :: text)
  | pair {inner text : List Char} : Level inner → Level text →
      Level ('(' :: inner ++ ')' :: text)

namespace Level

variable {wanted : List Char → Char → Bool} {before text text' body inner rest : List Char}
  {depth : ℤ}

theorem append (h : Level text) (h' : Level text') : Level (text ++ text') := by
  induction h with
  | nil => exact h'
  | plain hc _ ih => exact .plain hc ih
  | quoted hbody _ ih => simpa using quoted hbody ih
  | pair hinner _ _ ih => simpa using pair hinner ih

theorem of_plain (h : ∀ c ∈ text, isMark c = false) : Level text := by
  induction text with
  | nil => exact .nil
  | cons c text ih =>
    exact .plain (h c List.mem_cons_self) (ih fun d hd ↦ h d (List.mem_cons_of_mem c hd))

theorem parenthesised (h : Level inner) : Level ('(' :: inner ++ [')']) :=
  pair h .nil

/-- A scan runs through the body of a string. -/
theorem run_body (hbody : ∀ c ∈ body, c ≠ '"' ∧ c ≠ '\\') :
    Scan.run { quote := some '"', depth := depth } body =
      { quote := some '"', depth := depth } := by
  induction body with
  | nil => rfl
  | cons c body ih =>
    obtain ⟨hquote, hescape⟩ := hbody c List.mem_cons_self
    have hnext : Scan.next { quote := some '"', depth := depth } c =
        { quote := some '"', depth := depth } := by
      simp [Scan.next, hquote, hescape]
    rw [Scan.run_cons, hnext, ih fun d hd ↦ hbody d (List.mem_cons_of_mem c hd)]

/-- **A scan comes out of a level text as it went in.** -/
theorem run (h : Level text) : (Scan.atDepth depth).run text = Scan.atDepth depth := by
  induction h generalizing depth with
  | nil => rfl
  | plain hc _ ih => rw [Scan.run_cons, Scan.next_plain hc, ih]
  | quoted hbody _ ih =>
    rw [Scan.run_append, Scan.run_cons]
    show ((Scan.run { quote := some '"', depth := depth } _).next '"').run _ = _
    rw [run_body hbody]
    exact ih
  | pair _ _ ihinner ih =>
    rw [Scan.run_append, Scan.run_cons, Scan.run_cons, Scan.next_open, ihinner, Scan.next_close,
      Int.add_sub_cancel, ih]

/-- A scan that keeps what it has passed goes through the body of a string. -/
theorem scan_body {α : Type} (scan : Scan → List Char → List Char → α)
    (hquoted : ∀ {s before c rest}, s.quote ≠ none →
      scan s before (c :: rest) = scan (s.next c) (before ++ [c]) rest)
    (hbody : ∀ c ∈ body, c ≠ '"' ∧ c ≠ '\\') :
    scan { quote := some '"', depth := depth } before (body ++ '"' :: rest) =
      scan (.atDepth depth) (before ++ (body ++ ['"'])) rest := by
  induction body generalizing before with
  | nil =>
    rw [List.nil_append, hquoted (Option.some_ne_none _)]
    rfl
  | cons c body ih =>
    obtain ⟨hquote, hescape⟩ := hbody c List.mem_cons_self
    have hnext : Scan.next { quote := some '"', depth := depth } c =
        { quote := some '"', depth := depth } := by
      simp [Scan.next, hquote, hescape]
    rw [List.cons_append, hquoted (Option.some_ne_none _), hnext,
      ih fun d hd ↦ hbody d (List.mem_cons_of_mem c hd)]
    simp

theorem splitAtTop_quoted (hbody : ∀ c ∈ body, c ≠ '"' ∧ c ≠ '\\') :
    splitAtTop wanted (.atDepth depth) before ('"' :: body ++ '"' :: rest) =
      splitAtTop wanted (.atDepth depth) (before ++ ('"' :: body ++ ['"'])) rest := by
  have hmark : (Scan.atTop (.atDepth depth) '"' && wanted before '"') = false := by
    simp [Scan.atTop, isMark]
  rw [List.cons_append, splitAtTop_cons_of_not hmark]
  show splitAtTop wanted { quote := some '"', depth := depth } _ _ = _
  rw [scan_body (splitAtTop wanted) (fun hquote ↦ splitAtTop_cons_of_not ?_) hbody]
  · simp
  · simp [Scan.atTop, hquote]

/-- Within parentheses nothing is at the top. -/
theorem splitAtTop_nested (h : Level text) (hdepth : 1 ≤ depth) :
    splitAtTop wanted (.atDepth depth) before (text ++ rest) =
      splitAtTop wanted (.atDepth depth) (before ++ text) rest := by
  have hnot : ∀ {depth : ℤ} {before : List Char} (c : Char), 1 ≤ depth →
      (Scan.atTop (.atDepth depth) c && wanted before c) = false := by
    intro depth before c hdepth
    have hne : depth ≠ 0 := by omega
    simp [Scan.atTop, Scan.atDepth, hne]
  induction h generalizing depth before rest with
  | nil => simp
  | @plain c text hc _ ih =>
    rw [List.cons_append, splitAtTop_cons_of_not (hnot c hdepth), Scan.next_plain hc, ih hdepth]
    simp
  | @quoted body text hbody _ ih =>
    have hquoted := @splitAtTop_quoted wanted before body (text ++ rest) depth hbody
    rw [List.append_assoc]
    refine hquoted.trans ?_
    rw [ih hdepth]
    simp
  | @pair inner text _ _ ihinner ih =>
    rw [List.append_assoc, List.cons_append, splitAtTop_cons_of_not (hnot '(' hdepth),
      Scan.next_open, ihinner (by omega), List.cons_append,
      splitAtTop_cons_of_not (hnot ')' (by omega)), Scan.next_close, Int.add_sub_cancel,
      ih hdepth]
    simp

/-- A pair of parentheses is passed. -/
theorem splitAtTop_pair (h : Level inner) (hdepth : 0 ≤ depth) :
    splitAtTop wanted (.atDepth depth) before ('(' :: inner ++ ')' :: rest) =
      splitAtTop wanted (.atDepth depth) (before ++ ('(' :: inner ++ [')'])) rest := by
  have hopen : (Scan.atTop (.atDepth depth) '(' && wanted before '(') = false := by
    simp [Scan.atTop, isMark]
  rw [List.cons_append, splitAtTop_cons_of_not hopen, Scan.next_open,
    splitAtTop_nested h (by omega), splitAtTop_cons_of_not (by simp [Scan.atTop, isMark]),
    Scan.next_close, Int.add_sub_cancel]
  simp

/-! ### Wrapping parentheses -/

/-- Within parentheses the outermost one is not closed. -/
theorem closesAtEnd_nested (h : Level text) (hdepth : 1 ≤ depth) :
    closesAtEnd (.atDepth depth) (text ++ rest) = closesAtEnd (.atDepth depth) rest := by
  induction h generalizing depth rest with
  | nil => rfl
  | @plain c text hc _ ih =>
    have hclose : c ≠ ')' := fun hclose ↦ by simp [hclose, isMark] at hc
    rw [List.cons_append, closesAtEnd, if_neg fun hend ↦ hclose hend.2.1, Scan.next_plain hc,
      ih hdepth]
  | @quoted body text hbody _ ih =>
    rw [List.append_assoc, List.cons_append, closesAtEnd, if_neg fun hend ↦ by simp at hend]
    show closesAtEnd { quote := some '"', depth := depth } _ = _
    have hbody := @scan_body [] body (text ++ rest) depth _ (fun s _ text ↦ closesAtEnd s text)
      (fun hquote ↦ by rw [closesAtEnd, if_neg fun hend ↦ hquote hend.1]) hbody
    rw [List.cons_append, hbody, ih hdepth]
  | @pair inner text _ _ ihinner ih =>
    rw [List.append_assoc, List.cons_append, closesAtEnd, if_neg fun hend ↦ by simp at hend,
      Scan.next_open, ihinner (by omega), List.cons_append, closesAtEnd, if_neg ?_,
      Scan.next_close, Int.add_sub_cancel, ih hdepth]
    -- the parenthesis that is closed here is an inner one
    rintro ⟨-, -, hone, -⟩
    have hone : depth + 1 = 1 := hone
    omega

/-- One pair of parentheses around a level text. -/
theorem hasWrappingParentheses_pair (h : Level inner) :
    hasWrappingParentheses ('(' :: inner ++ [')']) = true := by
  have hend : closesAtEnd {} ('(' :: inner ++ [')']) = true := by
    rw [List.cons_append, closesAtEnd, if_neg fun hend ↦ by simp at hend]
    show closesAtEnd (.atDepth 1) _ = true
    rw [closesAtEnd_nested h (Int.le_refl 1), closesAtEnd, if_neg fun hend ↦ hend.2.2.2 rfl]
    rfl
  have hlast : ('(' :: inner ++ [')']).getLast? = some ')' := List.getLast?_concat
  rw [hasWrappingParentheses, hend, hlast]
  simp

/-- A first pair that is closed before the end does not wrap the text. -/
theorem hasWrappingParentheses_pair_append (h : Level inner) (hrest : rest ≠ []) :
    hasWrappingParentheses ('(' :: inner ++ ')' :: rest) = false := by
  have hend : closesAtEnd {} ('(' :: inner ++ ')' :: rest) = false := by
    rw [List.cons_append, closesAtEnd, if_neg fun hend ↦ by simp at hend]
    show closesAtEnd (.atDepth 1) _ = false
    rw [closesAtEnd_nested h (Int.le_refl 1), closesAtEnd, if_pos ⟨rfl, rfl, rfl, hrest⟩]
  rw [hasWrappingParentheses, hend, Bool.and_false]

/-! ### Parentheses that are not closed -/

/-- A scan of opening parentheses goes down with each. -/
theorem closesAtEnd_replicate (n : ℕ) (hdepth : 0 ≤ depth) :
    closesAtEnd (.atDepth depth) (List.replicate n '(' ++ text) =
      closesAtEnd (.atDepth (depth + n)) text := by
  induction n generalizing depth with
  | zero => rw [Int.add_comm, Int.natCast_zero, Int.zero_add]; rfl
  | succ n ih =>
    rw [List.replicate_succ, List.cons_append, closesAtEnd, if_neg fun hend ↦ by simp at hend,
      Scan.next_open, ih (by omega)]
    congr 2
    omega

theorem splitAtTop_replicate (n : ℕ) (hdepth : 0 ≤ depth) :
    splitAtTop wanted (.atDepth depth) before (List.replicate n '(' ++ text) =
      splitAtTop wanted (.atDepth (depth + n)) (before ++ List.replicate n '(') text := by
  induction n generalizing depth before with
  | zero => simp
  | succ n ih =>
    have hopen : (Scan.atTop (.atDepth depth) '(' && wanted before '(') = false := by
      simp [Scan.atTop, isMark]
    rw [List.replicate_succ, List.cons_append, splitAtTop_cons_of_not hopen, Scan.next_open,
      ih (by omega), List.append_assoc, List.singleton_append]
    congr 2
    omega

/-- Such a text is not one pair of parentheses, and is not split. -/
theorem not_wrapping_of_unclosed (h : Level text) (n : ℕ) :
    hasWrappingParentheses (List.replicate (n + 1) '(' ++ text) = false := by
  have hend : closesAtEnd {} (List.replicate (n + 1) '(' ++ text) = false := by
    have hopened := @closesAtEnd_replicate text 0 (n + 1) (Int.le_refl 0)
    have hnested := @closesAtEnd_nested text [] (0 + ((n + 1 : ℕ) : ℤ)) h (by omega)
    rw [List.append_nil] at hnested
    refine hopened.trans (hnested.trans (decide_eq_false ?_))
    show ¬ (0 + ((n + 1 : ℕ) : ℤ) = 0)
    omega
  rw [hasWrappingParentheses, hend, Bool.and_false]

theorem splitAtTop_of_unclosed (h : Level text) (n : ℕ) :
    splitAtTop wanted {} before (List.replicate (n + 1) '(' ++ text) = none := by
  have hopened := @splitAtTop_replicate wanted before text 0 (n + 1) (Int.le_refl 0)
  have hnested := @splitAtTop_nested wanted (before ++ List.replicate (n + 1) '(') text []
    (0 + ((n + 1 : ℕ) : ℤ)) h (by omega)
  rw [List.append_nil] at hnested
  exact hopened.trans hnested

end Level

end RulesForge
