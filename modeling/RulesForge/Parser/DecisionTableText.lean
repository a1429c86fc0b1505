import Mathlib.Algebra.Order.BigOperators.Group.List
import RulesForge.Engine.ArithmeticEvaluation

/-!
# Splitting the conditions of decision tables

The compiler of decision tables (`src/decision_table_compiler.cpp`) reads conditions without the
parser of rules: it takes off parentheses around a text (`strip_outer_parens`) and splits it at the
connectives `or`, `,` and `and` that stand outside of quotes and parentheses
(`split_top_level_logical`, `split_top_level_comma`). A quoted text ends at the next quote of its
kind, a backslash is a letter like any other.

A text is **balanced** when it is put together from plain letters, quoted texts and pairs of
parentheses. A split passes a balanced text that has no connective at the top.
-/

namespace RulesForge

namespace DecisionTable

/-! ### Scans -/

/-- Where a scan is: inside of which quotes, and in how many parentheses. -/
structure Scanner where
  depth : ℤ := 0
  inSingleQuote : Bool := false
  inDoubleQuote : Bool := false

namespace Scanner

/-- Whether a letter is passed because of quotes: it is inside of some, or is one itself. -/
def quoted (s : Scanner) (c : Char) : Bool :=
  s.inSingleQuote || s.inDoubleQuote || c = '"' || c = '\''

/-- The scan after a letter. What a closing parenthesis makes of the depth is not the same in
all scans. -/
def next (close : ℤ → ℤ) (s : Scanner) (c : Char) : Scanner :=
  if c = '"' ∧ s.inSingleQuote = false then { s with inDoubleQuote := !s.inDoubleQuote }
  else if c = '\'' ∧ s.inDoubleQuote = false then { s with inSingleQuote := !s.inSingleQuote }
  else if s.inSingleQuote || s.inDoubleQuote then s
  else if c = '(' then { s with depth := s.depth + 1 }
  else if c = ')' then { s with depth := close s.depth }
  else s

/-- A letter outside of quotes and parentheses, and none of these. -/
def atTop (s : Scanner) (c : Char) : Bool :=
  !s.quoted c && decide (s.depth = 0) && c ≠ '(' && c ≠ ')'

end Scanner

/-- `depth--` where the depth stays at zero. -/
def closeClamped (depth : ℤ) : ℤ := max 0 (depth - 1)

/-- `depth--`. -/
def closeUnclamped (depth : ℤ) : ℤ := depth - 1

/-! ### Parentheses around a text -/

/-- The loop of `fully_wrapped`. -/
def wrapsToEnd : Scanner → List Char → Bool
  | s, [] => decide (s.depth = 0)
  | s, c :: rest =>
    let s' := s.next closeUnclamped c
    if s.quoted c then wrapsToEnd s' rest
    else if s'.depth = 0 ∧ rest ≠ [] then false
    else if s'.depth < 0 then false
    else wrapsToEnd s' rest

def fullyWrapped (text : List Char) : Bool :=
  decide (2 ≤ text.length) && decide (text.head? = some '(') &&
    decide (text.getLast? = some ')') && wrapsToEnd {} text

/-- The text between the first letter and the last. -/
def between (text : List Char) : List Char :=
  (text.drop 1).dropLast

/-- `strip_outer_parens`: each round takes two letters off, so the length bounds the rounds. -/
def stripRounds : ℕ → List Char → List Char
  | 0, text => text
  | rounds + 1, text =>
    if fullyWrapped text then stripRounds rounds (trimAscii (between text)) else text

def stripOuterParens (text : List Char) : List Char :=
  stripRounds text.length (trimAscii text)

/-! ### Splitting -/

/-- `flush_current`. -/
def flushCurrent (current : List Char) : List (List Char) :=
  if trimAscii current = [] then [] else [trimAscii current]

/-- The loop of `split_top_level_logical` and of `split_top_level_comma`. A separator at the top
is told from the letter before it and the text from it on; it says how many letters after the
first belong to it. -/
def splitTopLevel (separator : Char → List Char → Option ℕ) :
    Scanner → ℕ → Char → List Char → List Char → List (List Char)
  | _, _, _, current, [] => flushCurrent current
  | s, skip + 1, _, current, c :: rest => splitTopLevel separator s skip c current rest
  | s, 0, before, current, c :: rest =>
    match (if s.atTop c then separator before (c :: rest) else none) with
    | some skip => flushCurrent current ++ splitTopLevel separator s skip c [] rest
    | none => splitTopLevel separator (s.next closeClamped c) 0 c (current ++ [c]) rest

/-- Equality up to the case of letters, for a text that may go on. -/
def startsWithCi (text word : List Char) : Bool :=
  decide (word.length ≤ text.length) &&
    (text.take word.length).map Char.toLower == word.map Char.toLower

/-- `is_boundary`. -/
def isBoundary (c : Char) : Bool :=
  isSpace c || c = '(' || c = ')'

/-- A word that is a connective, with boundaries around it. -/
def logicalSeparator (word : List Char) (before : Char) (text : List Char) : Option ℕ :=
  if startsWithCi text word && isBoundary before &&
      isBoundary ((text.drop word.length).headD ' ') then some (word.length - 1)
  else none

def commaSeparator (_before : Char) (text : List Char) : Option ℕ :=
  if text.head? = some ',' then some 0 else none

def splitTopLevelLogical (body word : List Char) : List (List Char) :=
  splitTopLevel (logicalSeparator word) {} 0 ' ' [] body

def splitTopLevelComma (text : List Char) : List (List Char) :=
  splitTopLevel commaSeparator {} 0 ' ' [] text

/-! ### Balanced texts -/

/-- Plain letters, quoted texts and pairs of parentheses. -/
inductive Balanced : List Char → Prop
  | nil : Balanced []
  | plain {c : Char} {text : List Char} : isMark c = false → Balanced text → Balanced (c :: text)
  | quoted {quote : Char} {body text : List Char} : quote = '"' ∨ quote = '\'' → quote ∉ body →
      Balanced text → Balanced (quote :: body ++ quote :: text)
  | pair {inner text : List Char} : Balanced inner → Balanced text →
      Balanced ('(' :: inner ++ ')' :: text)

/-- A scan outside of quotes. -/
def atDepth (depth : ℤ) : Scanner := { depth := depth }

/-- Where the scan of a text has a letter at the top, there is no separator. -/
def Inert (separator : Char → List Char → Option ℕ) :
    Scanner → Char → List Char → List Char → Prop
  | _, _, [], _ => True
  | s, before, c :: text, rest =>
    (s.atTop c = true → separator before (c :: text ++ rest) = none) ∧
      Inert separator (s.next closeClamped c) c text rest

/-! ### Scans of balanced texts -/

section Scans

variable {close : ℤ → ℤ} {s : Scanner} {c quote before : Char} {depth : ℤ}
  {text text' body rest current : List Char} {separator : Char → List Char → Option ℕ}

/-- The scan after a text. -/
def Scanner.run (close : ℤ → ℤ) (s : Scanner) (text : List Char) : Scanner :=
  text.foldl (Scanner.next close) s

theorem run_append : s.run close (text ++ text') = (s.run close text).run close text' :=
  List.foldl_append

/-- A parenthesis that was opened is closed again. -/
def Closes (close : ℤ → ℤ) : Prop := ∀ depth, 0 ≤ depth → close (depth + 1) = depth

theorem closes_clamped : Closes closeClamped := by
  intro depth hdepth
  show max 0 (depth + 1 - 1) = depth
  rw [Int.add_sub_cancel]
  exact max_eq_right hdepth

theorem closes_unclamped : Closes closeUnclamped :=
  fun depth _ ↦ Int.add_sub_cancel depth 1

theorem next_plain (hc : isMark c = false) : (atDepth depth).next close c = atDepth depth := by
  simp only [isMark, Bool.or_eq_false_iff, decide_eq_false_iff_not] at hc
  obtain ⟨⟨⟨hdouble, hsingle⟩, hopen⟩, hclose⟩ := hc
  simp [atDepth, Scanner.next, hdouble, hsingle, hopen, hclose]

theorem next_open : (atDepth depth).next close '(' = atDepth (depth + 1) := rfl

theorem next_close : (atDepth depth).next close ')' = atDepth (close depth) := rfl

/-- A scan inside of quotes. -/
def inQuotes (quote : Char) (depth : ℤ) : Scanner :=
  { depth := depth, inSingleQuote := decide (quote = '\''), inDoubleQuote := decide (quote = '"') }

theorem next_quote (hquote : quote = '"' ∨ quote = '\'') :
    (atDepth depth).next close quote = inQuotes quote depth ∧
      (inQuotes quote depth).next close quote = atDepth depth := by
  rcases hquote with rfl | rfl <;> exact ⟨rfl, rfl⟩

theorem next_inQuotes (hquote : quote = '"' ∨ quote = '\'') (hc : c ≠ quote) :
    (inQuotes quote depth).next close c = inQuotes quote depth := by
  rcases hquote with rfl | rfl <;> simp [inQuotes, Scanner.next, hc]

theorem run_inQuotes (hquote : quote = '"' ∨ quote = '\'') (hbody : quote ∉ body) :
    (inQuotes quote depth).run close body = inQuotes quote depth := by
  induction body with
  | nil => rfl
  | cons c body ih =>
    obtain ⟨hc, hbody⟩ := not_or.mp (mt List.mem_cons.mpr hbody)
    show ((inQuotes quote depth).next close c).run close body = _
    rw [next_inQuotes hquote (Ne.symm hc), ih hbody]

/-- **A scan comes out of a balanced text as it went in.** -/
theorem Balanced.run (h : Balanced text) (hclose : Closes close) (hdepth : 0 ≤ depth) :
    (atDepth depth).run close text = atDepth depth := by
  induction h generalizing depth with
  | nil => rfl
  | @plain c text hc _ ih =>
    show ((atDepth depth).next close c).run close text = _
    rw [next_plain hc, ih hdepth]
  | @quoted quote body text hquote hbody _ ih =>
    rw [run_append]
    show ((((atDepth depth).next close quote).run close body).next close quote).run close text = _
    rw [(next_quote hquote).1, run_inQuotes hquote hbody, (next_quote hquote).2, ih hdepth]
  | @pair inner text _ _ ihinner ih =>
    rw [run_append]
    show ((((atDepth depth).next close '(').run close inner).next close ')').run close text = _
    rw [next_open, ihinner (by omega), next_close, hclose depth hdepth, ih hdepth]

theorem Balanced.append (h : Balanced text) (h' : Balanced text') : Balanced (text ++ text') := by
  induction h with
  | nil => exact h'
  | plain hc _ ih => exact .plain hc ih
  | quoted hquote hbody _ ih => simpa using quoted hquote hbody ih
  | pair hinner _ _ ih => simpa using pair hinner ih

theorem Balanced.of_plain (h : ∀ c ∈ text, isMark c = false) : Balanced text := by
  induction text with
  | nil => exact .nil
  | cons c text ih =>
    exact .plain (h c List.mem_cons_self) (ih fun d hd ↦ h d (List.mem_cons_of_mem c hd))

theorem Balanced.parenthesised (h : Balanced text) : Balanced ('(' :: text ++ [')']) :=
  pair h .nil

/-! ### What a split passes -/

/-- The letter that a text leaves before what follows it. -/
def lastLetter (before : Char) (text : List Char) : Char :=
  text.getLastD before

theorem inert_append :
    Inert separator s before (text ++ text') rest ↔
      Inert separator s before text (text' ++ rest) ∧
        Inert separator (s.run closeClamped text) (lastLetter before text) text' rest := by
  induction text generalizing s before with
  | nil => simp [Inert, lastLetter, Scanner.run]
  | cons c text ih =>
    have hlast : lastLetter before (c :: text) = lastLetter c text := by
      cases text <;> rfl
    simp only [List.cons_append, Inert, ih, hlast, List.append_assoc, and_assoc]
    rfl

/-- A split passes an inert text. -/
theorem splitTopLevel_inert (h : Inert separator s before text rest) :
    splitTopLevel separator s 0 before current (text ++ rest) =
      splitTopLevel separator (s.run closeClamped text) 0 (lastLetter before text)
        (current ++ text) rest := by
  induction text generalizing s before current with
  | nil => simp [Scanner.run, lastLetter]
  | cons c text ih =>
    obtain ⟨hc, htext⟩ := h
    have hlast : lastLetter before (c :: text) = lastLetter c text := by
      cases text <;> rfl
    have hnone : (if s.atTop c then separator before (c :: (text ++ rest)) else none) = none := by
      split_ifs with htop
      · exact hc htop
      · rfl
    rw [List.cons_append, splitTopLevel, hnone, hlast]
    show splitTopLevel separator (s.next closeClamped c) 0 c (current ++ [c]) (text ++ rest) = _
    rw [ih htext, List.append_assoc]
    rfl

theorem inert_inQuotes (hquote : quote = '"' ∨ quote = '\'') (hbody : quote ∉ body) :
    Inert separator (inQuotes quote depth) before body rest := by
  induction body generalizing before with
  | nil => trivial
  | cons c body ih =>
    obtain ⟨hc, hbody⟩ := not_or.mp (mt List.mem_cons.mpr hbody)
    refine ⟨fun htop ↦ ?_, ?_⟩
    · rcases hquote with rfl | rfl <;> simp [Scanner.atTop, Scanner.quoted, inQuotes] at htop
    · rw [next_inQuotes hquote (Ne.symm hc)]
      exact ih hbody

/-- A quoted text has nothing at the top. -/
theorem inert_quoted (hquote : quote = '"' ∨ quote = '\'') (hbody : quote ∉ body) :
    Inert separator (atDepth depth) before (quote :: body ++ [quote]) rest := by
  refine ⟨fun htop ↦ ?_, ?_⟩
  · rcases hquote with rfl | rfl <;> simp [Scanner.atTop, Scanner.quoted] at htop
  · rw [(next_quote hquote).1]
    show Inert separator (inQuotes quote depth) quote (body ++ [quote]) rest
    rw [inert_append]
    refine ⟨inert_inQuotes hquote hbody, ?_⟩
    rw [run_inQuotes hquote hbody]
    refine ⟨fun htop ↦ ?_, trivial⟩
    rcases hquote with rfl | rfl <;> simp [Scanner.atTop, Scanner.quoted] at htop

theorem inert_pair (hdepth : 0 ≤ depth) (hbalanced : Balanced text)
    (htext : Inert separator (atDepth (depth + 1)) '(' text (')' :: rest)) :
    Inert separator (atDepth depth) before ('(' :: text ++ [')']) rest := by
  refine ⟨fun htop ↦ ?_, ?_⟩
  · simp [Scanner.atTop] at htop
  · rw [next_open]
    show Inert separator (atDepth (depth + 1)) '(' (text ++ [')']) rest
    rw [inert_append, hbalanced.run closes_clamped (by omega)]
    refine ⟨htext, fun htop ↦ ?_, trivial⟩
    simp [Scanner.atTop] at htop

/-- Within parentheses nothing is at the top. -/
theorem Balanced.inert_nested (h : Balanced text) (hdepth : 1 ≤ depth) :
    Inert separator (atDepth depth) before text rest := by
  induction h generalizing depth before rest with
  | nil => trivial
  | @plain c text hc _ ih =>
    refine ⟨fun htop ↦ ?_, ?_⟩
    · have hzero : depth ≠ 0 := by omega
      simp [Scanner.atTop, atDepth, hzero] at htop
    · rw [next_plain hc]
      exact ih hdepth
  | @quoted quote body text hquote hbody _ ih =>
    have hsplit : quote :: body ++ quote :: text = (quote :: body ++ [quote]) ++ text := by simp
    have hbalanced : Balanced (quote :: body ++ [quote]) := .quoted hquote hbody .nil
    rw [hsplit, inert_append, hbalanced.run closes_clamped (by omega)]
    exact ⟨inert_quoted hquote hbody, ih hdepth⟩
  | @pair inner text hinner _ ihinner ih =>
    have hsplit : '(' :: inner ++ ')' :: text = ('(' :: inner ++ [')']) ++ text := by simp
    rw [hsplit, inert_append, hinner.parenthesised.run closes_clamped (by omega)]
    exact ⟨inert_pair (by omega) hinner (ihinner (by omega)), ih hdepth⟩

/-- A pair of parentheses has nothing at the top. -/
theorem Balanced.inert_parenthesised (h : Balanced text) :
    Inert separator (atDepth 0) before ('(' :: text ++ [')']) rest :=
  inert_pair (Int.le_refl 0) h (h.inert_nested (Int.le_refl 1))

end Scans

/-! ### What is one pair of parentheses -/

section Wrapping

variable {c quote : Char} {depth : ℤ} {text inner body rest : List Char}

/-- A scan that keeps what it has passed goes through quoted letters. -/
theorem scan_inQuotes {α : Type} (scan : Scanner → List Char → List Char → α)
    (hquoted : ∀ {s inside c rest}, s.quoted c = true →
      scan s inside (c :: rest) = scan (s.next closeUnclamped c) (inside ++ [c]) rest)
    (hquote : quote = '"' ∨ quote = '\'') (hbody : quote ∉ body) (inside : List Char) :
    scan (inQuotes quote depth) inside (body ++ quote :: rest) =
      scan (atDepth depth) (inside ++ (body ++ [quote])) rest := by
  have hin : ∀ c, (inQuotes quote depth).quoted c = true := by
    rcases hquote with rfl | rfl <;> exact fun c ↦ rfl
  induction body generalizing inside with
  | nil => rw [List.nil_append, hquoted (hin quote), (next_quote hquote).2, List.nil_append]
  | cons c body ih =>
    obtain ⟨hc, hbody⟩ := not_or.mp (mt List.mem_cons.mpr hbody)
    rw [List.cons_append, hquoted (hin c), next_inQuotes hquote (Ne.symm hc), ih hbody]
    simp

/-- **Within parentheses** a scan that passes quoted letters, and letters that leave a parenthesis
open, passes a balanced text. -/
theorem Balanced.scan_nested {α : Type} (scan : Scanner → List Char → List Char → α)
    (hquoted : ∀ {s inside c rest}, s.quoted c = true →
      scan s inside (c :: rest) = scan (s.next closeUnclamped c) (inside ++ [c]) rest)
    (hpass : ∀ {depth depth' inside c rest}, (atDepth depth).quoted c = false →
      (atDepth depth).next closeUnclamped c = atDepth depth' → 1 ≤ depth' →
      scan (atDepth depth) inside (c :: rest) = scan (atDepth depth') (inside ++ [c]) rest)
    (h : Balanced text) (hdepth : 1 ≤ depth) (inside : List Char) :
    scan (atDepth depth) inside (text ++ rest) = scan (atDepth depth) (inside ++ text) rest := by
  induction h generalizing depth inside rest with
  | nil => simp
  | @plain c text hc _ ih =>
    have hplain : (atDepth depth).quoted c = false := by
      simp only [isMark, Bool.or_eq_false_iff, decide_eq_false_iff_not] at hc
      simp [Scanner.quoted, atDepth, hc.1.1.1, hc.1.1.2]
    rw [List.cons_append, hpass hplain (next_plain hc) hdepth, ih hdepth]
    simp
  | @quoted quote body text hquote hbody _ ih =>
    have hopens : (atDepth depth).quoted quote = true := by
      rcases hquote with rfl | rfl <;> rfl
    have hsplit : quote :: body ++ quote :: text ++ rest =
        quote :: (body ++ quote :: (text ++ rest)) := by simp
    rw [hsplit, hquoted hopens, (next_quote hquote).1, scan_inQuotes scan hquoted hquote hbody,
      ih hdepth]
    simp
  | @pair inner text _ _ ihinner ih =>
    have hsplit : '(' :: inner ++ ')' :: text ++ rest =
        '(' :: (inner ++ ')' :: (text ++ rest)) := by simp
    have hclose : (atDepth (depth + 1)).next closeUnclamped ')' = atDepth depth := by
      rw [next_close, closes_unclamped depth (by omega)]
    rw [hsplit, hpass rfl next_open (by omega), ihinner (by omega), hpass rfl hclose hdepth,
      ih hdepth]
    simp

/-- A letter that leaves a parenthesis open is passed. -/
theorem wrapsToEnd_pass {depth' : ℤ} (hquoted : (atDepth depth).quoted c = false)
    (hnext : (atDepth depth).next closeUnclamped c = atDepth depth') (hdepth : 1 ≤ depth') :
    wrapsToEnd (atDepth depth) (c :: rest) = wrapsToEnd (atDepth depth') rest := by
  have hzero : ¬ (depth' = 0 ∧ rest ≠ []) := fun h ↦ by omega
  have hneg : ¬ depth' < 0 := by omega
  rw [wrapsToEnd, hnext, hquoted]
  simp only [Bool.false_eq_true, if_false]
  show (if depth' = 0 ∧ rest ≠ [] then _ else if depth' < 0 then _ else _) = _
  rw [if_neg hzero, if_neg hneg]

/-- Within parentheses the loop passes a balanced text. -/
theorem wrapsToEnd_nested (h : Balanced text) (hdepth : 1 ≤ depth) :
    wrapsToEnd (atDepth depth) (text ++ rest) = wrapsToEnd (atDepth depth) rest :=
  h.scan_nested (fun s _ text ↦ wrapsToEnd s text)
    (fun hc ↦ by rw [wrapsToEnd, if_pos hc])
    wrapsToEnd_pass hdepth []

theorem fullyWrapped_parenthesised (h : Balanced inner) :
    fullyWrapped ('(' :: inner ++ [')']) = true := by
  have hwraps : wrapsToEnd {} ('(' :: inner ++ [')']) = true := by
    show wrapsToEnd (atDepth 0) ('(' :: (inner ++ [')'])) = true
    rw [wrapsToEnd_pass rfl next_open (by omega), wrapsToEnd_nested h (by omega)]
    rfl
  have hlast : ('(' :: inner ++ [')']).getLast? = some ')' := List.getLast?_concat
  rw [fullyWrapped, hwraps, hlast]
  simp

/-- A text that goes on after a balanced front is not one pair of parentheses. -/
theorem fullyWrapped_of_front {front : List Char} (h : Balanced front) (hfront : front ≠ [])
    (hrest : rest ≠ []) : fullyWrapped (front ++ rest) = false := by
  have hhead : ∀ {text : List Char}, text.head? ≠ some '(' → fullyWrapped text = false := by
    intro text hne
    rw [fullyWrapped, decide_eq_false hne]
    simp
  cases h with
  | nil => exact absurd rfl hfront
  | @plain c text hc _ =>
    refine hhead fun hopen ↦ ?_
    obtain rfl := Option.some.inj hopen
    cases hc
  | @quoted quote body text hquote _ _ =>
    refine hhead fun hopen ↦ ?_
    obtain rfl := Option.some.inj hopen
    rcases hquote with h | h <;> cases h
  | @pair inner text hinner _ =>
    have hsplit : '(' :: inner ++ ')' :: text ++ rest =
        '(' :: (inner ++ ')' :: (text ++ rest)) := by simp
    have hwraps : wrapsToEnd {} ('(' :: (inner ++ ')' :: (text ++ rest))) = false := by
      show wrapsToEnd (atDepth 0) _ = false
      rw [wrapsToEnd_pass rfl next_open (by omega), wrapsToEnd_nested hinner (by omega), wrapsToEnd]
      show (if (closeUnclamped 1) = 0 ∧ text ++ rest ≠ [] then false else _) = false
      exact if_pos ⟨rfl, by simp [hrest]⟩
    rw [hsplit, fullyWrapped, hwraps, Bool.and_false]

theorem between_parenthesised : between ('(' :: inner ++ [')']) = inner := by
  show (inner ++ [')']).dropLast = inner
  exact List.dropLast_concat

theorem length_trimAscii_le (text : List Char) : (trimAscii text).length ≤ text.length := by
  have hfront : (text.dropWhile isSpace).length ≤ text.length :=
    (List.dropWhile_suffix isSpace).length_le
  have hback : (trimAscii text).length ≤ (text.dropWhile isSpace).length :=
    (List.rdropWhile_prefix _ _).length_le
  omega

theorem two_le_of_fullyWrapped (h : fullyWrapped text = true) : 2 ≤ text.length := by
  simp only [fullyWrapped, Bool.and_eq_true, decide_eq_true_eq] at h
  exact h.1.1.1

theorem length_between (text : List Char) : (between text).length = text.length - 2 := by
  rw [between, List.length_dropLast, List.length_drop]
  omega

/-- The length of a text bounds the rounds. -/
theorem stripRounds_eq {rounds rounds' : ℕ} (h : text.length ≤ rounds)
    (h' : text.length ≤ rounds') : stripRounds rounds text = stripRounds rounds' text := by
  induction rounds generalizing rounds' text with
  | zero =>
    obtain rfl : text = [] := List.length_eq_zero_iff.mp (by omega)
    cases rounds' <;> rfl
  | succ rounds ih =>
    cases rounds' with
    | zero =>
      obtain rfl : text = [] := List.length_eq_zero_iff.mp (by omega)
      rfl
    | succ rounds' =>
      rw [stripRounds, stripRounds]
      by_cases hwrapped : fullyWrapped text = true
      · have hshort := length_trimAscii_le (between text)
        have htwo := two_le_of_fullyWrapped hwrapped
        rw [length_between] at hshort
        rw [if_pos hwrapped, if_pos hwrapped]
        exact ih (by omega) (by omega)
      · rw [if_neg hwrapped, if_neg hwrapped]

theorem length_stripRounds_le (rounds : ℕ) (text : List Char) :
    (stripRounds rounds text).length ≤ text.length := by
  induction rounds generalizing text with
  | zero => exact Nat.le_refl _
  | succ rounds ih =>
    rw [stripRounds]
    by_cases hwrapped : fullyWrapped text = true
    · have hinner := ih (trimAscii (between text))
      have hshort := length_trimAscii_le (between text)
      rw [length_between] at hshort
      rw [if_pos hwrapped]
      omega
    · rw [if_neg hwrapped]

theorem length_stripOuterParens_le (text : List Char) :
    (stripOuterParens text).length ≤ text.length :=
  Nat.le_trans (length_stripRounds_le _ _) (length_trimAscii_le text)

theorem length_flushCurrent (current : List Char) :
    (flushCurrent current).length ≤ 1 ∧
      ((flushCurrent current).map List.length).sum ≤ current.length := by
  have hshort := length_trimAscii_le current
  rw [flushCurrent]
  split_ifs with hnil
  · exact ⟨Nat.zero_le _, Nat.zero_le _⟩
  · refine ⟨Nat.le_refl _, ?_⟩
    rw [List.map_singleton, List.sum_singleton]
    exact hshort

/-- The parts of a text take a letter less than the text for each place it is split at. -/
theorem length_splitTopLevel (separator : Char → List Char → Option ℕ) (s : Scanner)
    (skip : ℕ) (before : Char) (current text : List Char) :
    ((splitTopLevel separator s skip before current text).map List.length).sum +
      ((splitTopLevel separator s skip before current text).length - 1) ≤
        current.length + text.length := by
  induction text generalizing s skip before current with
  | nil =>
    obtain ⟨hone, hsum⟩ := length_flushCurrent current
    rw [splitTopLevel, List.length_nil]
    omega
  | cons c text ih =>
    cases skip with
    | succ skip =>
      have hrest := ih s skip c current
      rw [splitTopLevel, List.length_cons]
      omega
    | zero =>
      rw [splitTopLevel]
      cases hfound : (if s.atTop c then separator before (c :: text) else none) with
      | some skip =>
        obtain ⟨hone, hsum⟩ := length_flushCurrent current
        have hrest := ih s skip c []
        simp only [List.map_append, List.sum_append, List.length_append, List.length_cons,
          List.length_nil] at hrest ⊢
        omega
      | none =>
        have hrest := ih (s.next closeClamped c) 0 c (current ++ [c])
        simp only [List.length_append, List.length_cons, List.length_nil] at hrest ⊢
        omega

/-- **A part of several is shorter than the text.** -/
theorem length_part_lt {parts : List (List Char)} {skip : ℕ}
    (hparts : splitTopLevel separator s skip before [] text = parts) (hlength : 2 ≤ parts.length) :
    ∀ part ∈ parts, part.length < text.length := by
  intro part hpart
  have htotal := length_splitTopLevel separator s skip before [] text
  have hmem : part.length ∈ parts.map List.length := List.mem_map_of_mem hpart
  have hle := List.single_le_sum (fun _ _ ↦ Nat.zero_le _) _ hmem
  rw [hparts, List.length_nil] at htotal
  omega

/-- The loop of `strip_outer_parens`, once. -/
theorem stripOuterParens_eq (text : List Char) :
    stripOuterParens text =
      if fullyWrapped (trimAscii text) then stripOuterParens (between (trimAscii text))
      else trimAscii text := by
  have hshort := length_trimAscii_le text
  rw [stripOuterParens, stripRounds_eq hshort (Nat.le_succ_of_le hshort), stripRounds]
  split_ifs with hwrapped
  · have hinner := length_trimAscii_le (between (trimAscii text))
    have htwo := two_le_of_fullyWrapped hwrapped
    have hlength := length_between (trimAscii text)
    exact stripRounds_eq (by omega) hinner
  · rfl

end Wrapping

/-! ### Spaces around a text -/

section Spaces

variable {text spaces spaces' : List Char}

/-- Nothing but white space. -/
def Blank (text : List Char) : Prop := ∀ c ∈ text, isSpace c = true

theorem blank_nil : Blank [] :=
  fun _ h ↦ absurd h List.not_mem_nil

theorem blank_space : Blank [' '] := by
  intro c hc
  obtain rfl := List.mem_singleton.mp hc
  rfl

theorem trimAscii_padded (hspaces : Blank spaces) (hspaces' : Blank spaces') (h : Tight text) :
    trimAscii (spaces ++ text ++ spaces') = text := by
  obtain ⟨c, tail, htext, hc⟩ := h.head
  have hfront : (spaces ++ text ++ spaces').dropWhile isSpace = text ++ spaces' := by
    rw [List.append_assoc, List.dropWhile_append_of_pos (fun d hd ↦ hspaces d hd), htext,
      List.cons_append, List.dropWhile_cons_of_neg (by simp [hc])]
  rw [trimAscii, hfront]
  obtain ⟨init, d, rfl, hd⟩ := h.last
  induction spaces' using List.reverseRecOn with
  | nil => rw [List.append_nil, List.rdropWhile_concat_neg _ _ _ (by simp [hd])]
  | append_singleton spaces' e ih =>
    rw [← List.append_assoc, List.rdropWhile_concat_pos _ _ _
      (hspaces' e (List.mem_append_right _ List.mem_cons_self))]
    refine ih (fun a ha ↦ hspaces' a (List.mem_append_left _ ha)) ?_
    rw [List.append_assoc, List.dropWhile_append_of_pos (fun d hd ↦ hspaces d hd), htext,
      List.cons_append, List.dropWhile_cons_of_neg (by simp [hc])]

theorem trimAscii_front (hspaces : Blank spaces) (h : Tight text) :
    trimAscii (spaces ++ text) = text := by
  have hpadded := trimAscii_padded hspaces blank_nil h
  rwa [List.append_nil] at hpadded

theorem trimAscii_back (hspaces : Blank spaces) (h : Tight text) :
    trimAscii (text ++ spaces) = text :=
  trimAscii_padded blank_nil hspaces h

theorem stripOuterParens_padded (hspaces : Blank spaces) (hspaces' : Blank spaces')
    (h : Tight text) : stripOuterParens (spaces ++ text ++ spaces') = stripOuterParens text := by
  rw [stripOuterParens_eq, trimAscii_padded hspaces hspaces' h, stripOuterParens_eq text, h.trim]

theorem flushCurrent_padded (hspaces : Blank spaces) (hspaces' : Blank spaces') (h : Tight text) :
    flushCurrent (spaces ++ text ++ spaces') = [text] := by
  rw [flushCurrent, trimAscii_padded hspaces hspaces' h, if_neg h.ne_nil]

theorem balanced_of_blank (h : Blank text) : Balanced text := by
  refine .of_plain fun c hc ↦ ?_
  have hspace := h c hc
  rw [isMark, Bool.or_eq_false_iff, Bool.or_eq_false_iff, Bool.or_eq_false_iff]
  refine ⟨⟨⟨?_, ?_⟩, ?_⟩, ?_⟩ <;> refine decide_eq_false ?_ <;> rintro rfl <;> cases hspace

end Spaces

end DecisionTable

end RulesForge
