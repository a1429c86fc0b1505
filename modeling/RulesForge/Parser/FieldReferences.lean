import RulesForge.Parser.ConstraintLiterals

/-!
# Field references

A field reference is parsed twice. The grammar accepts names and indexes and keeps their text
(`field_ref`, `parser/rfl_grammar_lemon.y`), and `parse_field_path` (`src/core/rfl_rete_defs.cpp`)
reads that text again: first it looks for the separators outside of brackets, then for the indexes
of each segment.

Both count brackets without regard to quotes. A quoted index that opens a bracket hides the
separators after it, and one that closes a bracket ends early.
-/

namespace RulesForge

/-! ### References -/

/-- `[a-zA-Z_] [a-zA-Z0-9_]*`. -/
def isIdentifierText : List Char → Bool
  | [] => false
  | c :: text => (c.isAlpha || c = '_') && text.all fun c ↦ c.isAlphanum || c = '_'

/-- What stands between brackets: `-?[0-9]+`, or a text in quotes. -/
inductive FieldIndex where
  | integer (negative : Bool) (digits : List Char) (ne_nil : digits ≠ [])
      (isDigit : digits.all Char.isDigit = true)
  | string (token : StringToken)

namespace FieldIndex

def text : FieldIndex → List Char
  | integer negative digits _ _ => if negative then '-' :: digits else digits
  | string token => token.quote :: token.body ++ [token.quote]

/-- The index that is written. -/
def denoted : FieldIndex → IndexAccess
  | integer negative digits _ _ => { isInteger := true, intIndex := signedValue negative digits }
  | string token => { isInteger := false, strIndex := String.ofList (unescape token.body) }

/-- The letters between quotes. -/
def body : FieldIndex → List Char
  | integer _ _ _ _ => []
  | string token => token.body

end FieldIndex

/-- A name with its indexes. -/
structure FieldSegment where
  name : List Char
  indices : List FieldIndex

namespace FieldSegment

def text (segment : FieldSegment) : List Char :=
  segment.name ++ segment.indices.flatMap fun index ↦ '[' :: index.text ++ [']']

/-- The segment that is written. -/
def denoted (nullSafe : Bool) (segment : FieldSegment) : PathSegment where
  name := String.ofList segment.name
  nullSafe := nullSafe
  indices := segment.indices.map FieldIndex.denoted

end FieldSegment

/-- `field_ref`: a name, a variable or `this`, and names after `.` or `!.`. -/
structure FieldRef where
  head : FieldSegment
  rest : List (Bool × FieldSegment)
  isHead : isIdentifierText head.name = true ∨
    ∃ name, head.name = '$' :: name ∧ isIdentifierText name = true
  isName : ∀ part ∈ rest, isIdentifierText part.2.name = true

/-- The text of what follows a segment. -/
def partsText (parts : List (Bool × FieldSegment)) : List Char :=
  parts.flatMap fun part ↦ (if part.1 then ['!', '.'] else ['.']) ++ part.2.text

namespace FieldRef

def text (ref : FieldRef) : List Char := ref.head.text ++ partsText ref.rest

/-- The path that is written. -/
def segments (ref : FieldRef) : List PathSegment :=
  ref.head.denoted false :: ref.rest.map fun part ↦ part.2.denoted part.1

end FieldRef

/-! ### Letters and brackets -/

section Scanning

variable {depth depth' depth'' : ℕ} {text text' more : List Char} {c : Char}
  {previous : Option Char}

/-- The letters of a name. -/
def IsNameChar (c : Char) : Prop := c ≠ '[' ∧ c ≠ ']' ∧ c ≠ '.' ∧ c ≠ '!'

/-- The scan goes over a text without finding a separator, from one depth of brackets to
another. -/
def PassedOver (depth : ℕ) (text : List Char) (depth' : ℕ) : Prop :=
  ∀ previous more, scanSegment previous depth (text ++ more) =
    (text ++ (scanSegment (text.getLast?.or previous) depth' more).1,
      (scanSegment (text.getLast?.or previous) depth' more).2)

namespace PassedOver

theorem nil (depth : ℕ) : PassedOver depth [] depth := fun _ _ ↦ rfl

theorem append (h : PassedOver depth text depth') (h' : PassedOver depth' text' depth'') :
    PassedOver depth (text ++ text') depth'' := by
  intro previous more
  rw [List.append_assoc, h previous, h' _ more, List.getLast?_append, Option.or_assoc,
    List.append_assoc]

theorem cons (h : PassedOver depth [c] depth') (h' : PassedOver depth' text depth'') :
    PassedOver depth (c :: text) depth'' := h.append h'

theorem opening : PassedOver depth ['['] (depth + 1) := fun _ _ ↦ rfl

theorem closing : PassedOver (depth + 1) [']'] depth := fun _ _ ↦ rfl

/-- A letter that is no bracket is gone over if it is no separator, or within brackets. -/
theorem letter (hopen : c ≠ '[') (hclose : c ≠ ']') (hsep : depth ≠ 0 ∨ c ≠ '.' ∧ c ≠ '!') :
    PassedOver depth [c] depth := by
  intro previous more
  show scanSegment previous depth (c :: more) = (c :: (scanSegment (some c) depth more).1, _)
  have hnull : ¬(depth = 0 ∧ c = '!' ∧ more.head? = some '.') := by tauto
  have hdot : ¬(depth = 0 ∧ c = '.' ∧ previous ≠ some '!') := by tauto
  rw [scanSegment, if_neg hopen, if_neg hclose, if_neg hnull, if_neg hdot]
  rfl

theorem name (h : ∀ c ∈ text, IsNameChar c) : PassedOver depth text depth := by
  induction text with
  | nil => exact nil depth
  | cons c text ih =>
    obtain ⟨hopen, hclose, hdot, hbang⟩ := h c List.mem_cons_self
    exact (letter hopen hclose (.inr ⟨hdot, hbang⟩)).cons
      (ih fun d hd ↦ h d (List.mem_cons_of_mem _ hd))

/-- Within brackets only brackets count. -/
theorem inner (h : ']' ∉ text) :
    PassedOver (depth + 1) text (depth + 1 + text.count '[') := by
  induction text generalizing depth with
  | nil => exact nil _
  | cons c text ih =>
    rw [List.mem_cons, not_or] at h
    by_cases hopen : c = '['
    · rw [hopen, List.count_cons_self, ← Nat.add_assoc, Nat.add_right_comm _ _ 1]
      exact opening.cons (ih h.2)
    · rw [List.count_cons_of_ne hopen]
      exact (letter hopen (Ne.symm h.1) (.inl (Nat.succ_ne_zero depth))).cons (ih h.2)

end PassedOver

end Scanning

/-! ### Segments -/

/-- The brackets that the indexes of a segment open. -/
def FieldSegment.opened (segment : FieldSegment) : ℕ :=
  (segment.indices.map fun index ↦ index.text.count '[').sum

/-- A segment whose name has letters of names only, and whose indexes close no brackets. -/
structure FieldSegment.Readable (segment : FieldSegment) : Prop where
  name_ne_nil : segment.name ≠ []
  isNameChar : ∀ c ∈ segment.name, IsNameChar c
  closesNone : ∀ index ∈ segment.indices, ']' ∉ index.text

/-- What the code makes of a segment. -/
def FieldSegment.read (nullSafe : Bool) (segment : FieldSegment) : PathSegment where
  name := String.ofList segment.name
  nullSafe := nullSafe
  indices := segment.indices.map fun index ↦ parseIndex index.text

/-- What the code makes of a segment and those after it: nothing comes behind a segment that opens
brackets. -/
def readParts (nullSafe : Bool) (segment : FieldSegment) :
    List (Bool × FieldSegment) → List PathSegment
  | [] => [segment.read nullSafe]
  | (nullSafe', segment') :: parts =>
    if segment.opened = 0 then segment.read nullSafe :: readParts nullSafe' segment' parts
    else [segment.read nullSafe]

theorem partsText_cons (nullSafe : Bool) (segment : FieldSegment)
    (parts : List (Bool × FieldSegment)) :
    partsText ((nullSafe, segment) :: parts) =
      (if nullSafe then ['!', '.'] else ['.']) ++ (segment.text ++ partsText parts) := by
  rw [partsText, List.flatMap_cons, List.append_assoc]
  rfl

/-- The last round of `parse_field_path`. -/
theorem parseFieldPathFrom_last {fuel : ℕ} {previous : Option Char} {nullSafe : Bool}
    {path : List Char} (hne : path ≠ []) (hscan : scanSegment previous 0 path = (path, none)) :
    parseFieldPathFrom (fuel + 1) previous nullSafe path =
      [parseSegmentWithIndices path nullSafe] := by
  rw [parseFieldPathFrom, if_neg hne, hscan]
  exact if_neg hne

/-- A round of `parse_field_path` that finds a separator. -/
theorem parseFieldPathFrom_separator {fuel : ℕ} {previous : Option Char}
    {nullSafe nullSafe' : Bool} {path text rest : List Char} (hne : text ≠ [])
    (hscan : scanSegment previous 0 path = (text, some (nullSafe', rest))) :
    parseFieldPathFrom (fuel + 1) previous nullSafe path =
      parseSegmentWithIndices text nullSafe ::
        parseFieldPathFrom fuel (some '.') nullSafe' rest := by
  have hpath : path ≠ [] := by
    rintro rfl
    cases hscan
  rw [parseFieldPathFrom, if_neg hpath, hscan]
  show (if text = [] then [] else [parseSegmentWithIndices text nullSafe]) ++ _ = _
  rw [if_neg hne]
  rfl

namespace FieldSegment.Readable

variable {segment : FieldSegment} {parts : List (Bool × FieldSegment)} {depth fuel : ℕ}
  {previous : Option Char} {nullSafe : Bool} {more : List Char}

theorem text_ne_nil (h : segment.Readable) : segment.text ≠ [] :=
  List.append_ne_nil_of_left_ne_nil h.name_ne_nil _

theorem passedOver (h : segment.Readable) :
    PassedOver depth segment.text (depth + segment.opened) := by
  have hindices : ∀ (indices : List FieldIndex) (depth : ℕ),
      (∀ index ∈ indices, ']' ∉ index.text) →
      PassedOver depth (indices.flatMap fun index ↦ '[' :: index.text ++ [']'])
        (depth + (indices.map fun index ↦ index.text.count '[').sum) := by
    intro indices
    induction indices with
    | nil => exact fun depth _ ↦ .nil depth
    | cons index indices ih =>
      intro depth hclosed
      have hinner := @PassedOver.inner depth _ (hclosed index List.mem_cons_self)
      rw [Nat.add_right_comm] at hinner
      rw [List.flatMap_cons, List.map_cons, List.sum_cons, ← Nat.add_assoc]
      refine ((PassedOver.opening.cons hinner).append .closing).append (ih _ ?_)
      exact fun index hindex ↦ hclosed index (List.mem_cons_of_mem _ hindex)
  exact (PassedOver.name h.isNameChar).append (hindices _ _ h.closesNone)

/-- A segment does not end with a `!`, which would hide the separator. -/
theorem getLast_ne (h : segment.Readable) : segment.text.getLast?.or previous ≠ some '!' := by
  have hlast : ∀ c ∈ segment.text.getLast?, c ≠ '!' := by
    intro c hc
    rw [FieldSegment.text] at hc
    rcases List.eq_nil_or_concat segment.indices with hnil | ⟨indices, index, hcat⟩
    · rw [hnil, List.flatMap_nil, List.append_nil] at hc
      exact (h.isNameChar c (List.mem_of_getLast? hc)).2.2.2
    · rw [hcat, List.concat_eq_append, List.flatMap_append, List.flatMap_singleton,
        ← List.append_assoc, ← List.append_assoc, List.getLast?_concat] at hc
      cases hc
      decide
  cases hget : segment.text.getLast? with
  | none => exact absurd (List.getLast?_eq_none_iff.mp hget) h.text_ne_nil
  | some c => exact fun heq ↦ hlast c hget (Option.some.inj heq)

theorem scanSegment_end (h : segment.Readable) :
    scanSegment previous 0 segment.text = (segment.text, none) := by
  have hscan := @passedOver segment 0 h previous []
  rw [List.append_nil] at hscan
  rw [hscan]
  exact congrArg (·, none) (List.append_nil _)

/-- The separator behind a segment is found if no bracket is open. -/
theorem scanSegment_separator (h : segment.Readable) (hopened : segment.opened = 0) :
    scanSegment previous 0 (segment.text ++ ((if nullSafe then ['!', '.'] else ['.']) ++ more)) =
      (segment.text, some (nullSafe, more)) := by
  have hscan := @passedOver segment 0 h previous
    ((if nullSafe then ['!', '.'] else ['.']) ++ more)
  rw [hopened] at hscan
  rw [hscan]
  have hfound : scanSegment (segment.text.getLast?.or previous) 0
      ((if nullSafe then ['!', '.'] else ['.']) ++ more) = ([], some (nullSafe, more)) := by
    cases nullSafe with
    | true => rfl
    | false =>
      show scanSegment _ 0 ('.' :: more) = _
      rw [scanSegment, if_neg (by decide), if_neg (by decide), if_neg (by simp),
        if_pos ⟨rfl, rfl, h.getLast_ne⟩]
  rw [hfound]
  exact congrArg (·, some (nullSafe, more)) (List.append_nil _)

/-- Behind an open bracket no separator is found. -/
theorem scanSegment_open (h : segment.Readable) (hopened : segment.opened ≠ 0)
    (hparts : ∀ part ∈ parts, part.2.Readable) :
    scanSegment previous 0 (segment.text ++ partsText parts) =
      (segment.text ++ partsText parts, none) := by
  have hrest : ∀ depth, ∃ depth', PassedOver (depth + 1) (partsText parts) depth' := by
    induction parts with
    | nil => exact fun depth ↦ ⟨_, .nil _⟩
    | cons part parts ih =>
      intro depth
      have hsep : PassedOver (depth + 1) (if part.1 then ['!', '.'] else ['.']) (depth + 1) := by
        have hdot : PassedOver (depth + 1) ['.'] (depth + 1) :=
          .letter (by decide) (by decide) (.inl (Nat.succ_ne_zero depth))
        cases part.1 with
        | true =>
          have hbang : PassedOver (depth + 1) ['!'] (depth + 1) :=
            .letter (by decide) (by decide) (.inl (Nat.succ_ne_zero depth))
          exact hbang.cons hdot
        | false => exact hdot
      have hpart := @passedOver part.2 (depth + 1) (hparts part List.mem_cons_self)
      rw [Nat.add_right_comm] at hpart
      obtain ⟨depth', hrest⟩ := ih (fun p hp ↦ hparts p (List.mem_cons_of_mem _ hp))
        (depth + part.2.opened)
      exact ⟨depth', (hsep.append hpart).append hrest⟩
  obtain ⟨depth, hdepth⟩ := Nat.exists_eq_succ_of_ne_zero hopened
  obtain ⟨depth', hrest⟩ := hrest depth
  have hall := @passedOver segment 0 h
  rw [hdepth, Nat.zero_add] at hall
  have hscan := hall.append hrest previous []
  rw [List.append_nil] at hscan
  rw [hscan]
  exact congrArg (·, none) (List.append_nil _)

theorem parseIndices_text {indices : List FieldIndex} (hfuel : indices.length ≤ fuel)
    (hclosed : ∀ index ∈ indices, ']' ∉ index.text) (hmore : more.head? ≠ some '[') :
    parseIndices fuel ((indices.flatMap fun index ↦ '[' :: index.text ++ [']']) ++ more) =
      indices.map fun index ↦ parseIndex index.text := by
  induction indices generalizing fuel with
  | nil =>
    rw [List.flatMap_nil, List.nil_append, List.map_nil]
    cases fuel with
    | zero => rfl
    | succ fuel =>
      cases more with
      | nil => rfl
      | cons c more =>
        have hc : c ≠ '[' := fun heq ↦ hmore (congrArg some heq)
        unfold parseIndices
        split
        · rename_i heq
          exact absurd (List.cons.inj heq).1 hc
        · rfl
  | cons index indices ih =>
    rw [List.length_cons] at hfuel
    obtain ⟨fuel, rfl⟩ : ∃ fuel', fuel = fuel' + 1 := ⟨fuel - 1, by omega⟩
    have hnone := hclosed index List.mem_cons_self
    -- the first bracket that closes is the one of the index
    have hall : ∀ c ∈ index.text, decide (c ≠ ']') = true := by
      intro c hc
      rw [decide_eq_true_eq]
      rintro rfl
      exact hnone hc
    rw [List.flatMap_cons, List.map_cons, List.append_assoc, List.cons_append, List.cons_append,
      List.append_assoc, List.singleton_append]
    rw [parseIndices, if_pos (List.mem_append_right _ List.mem_cons_self),
      List.takeWhile_append_of_pos hall, List.dropWhile_append_of_pos hall]
    simp only [List.takeWhile_cons, List.dropWhile_cons, ne_eq, not_true_eq_false, decide_false,
      Bool.false_eq_true, if_false, List.append_nil, List.tail_cons]
    rw [ih (Nat.le_of_succ_le_succ hfuel) fun index' hindex ↦
      hclosed index' (List.mem_cons_of_mem _ hindex)]

/-- The indexes of a segment are read, and whatever comes behind them is lost. -/
theorem parseSegment_text (h : segment.Readable) (hmore : more.head? ≠ some '[')
    (hkept : more = [] ∨ segment.indices ≠ []) :
    parseSegmentWithIndices (segment.text ++ more) nullSafe = segment.read nullSafe := by
  have hname : ∀ c ∈ segment.name, decide (c ≠ '[') = true := fun c hc ↦
    decide_eq_true (h.isNameChar c hc).1
  set rest := (segment.indices.flatMap fun index ↦ '[' :: index.text ++ [']']) ++ more with hrest
  have htext : segment.text ++ more = segment.name ++ rest := by
    rw [hrest, FieldSegment.text, List.append_assoc]
  -- behind the name there is a bracket or nothing
  have hbehind : rest.takeWhile (fun c ↦ decide (c ≠ '[')) = [] ∧
      rest.dropWhile (fun c ↦ decide (c ≠ '[')) = rest := by
    rcases hindices : segment.indices with _ | ⟨index, indices⟩
    · rcases hkept with rfl | hne
      · rw [hindices] at hrest
        rw [hrest]
        exact ⟨rfl, rfl⟩
      · exact absurd hindices hne
    · rw [hindices] at hrest
      rw [hrest]
      exact ⟨rfl, rfl⟩
  have hread : parseIndices rest.length rest =
      segment.indices.map fun index ↦ parseIndex index.text := by
    refine parseIndices_text ?_ h.closesNone hmore
    have hlength : ∀ indices : List FieldIndex,
        indices.length ≤ (indices.flatMap fun index ↦ '[' :: index.text ++ [']']).length := by
      intro indices
      induction indices with
      | nil => exact le_rfl
      | cons index indices ih =>
        rw [List.flatMap_cons, List.length_append, List.length_append, List.length_cons,
          List.length_cons]
        omega
    rw [hrest, List.length_append]
    exact (hlength segment.indices).trans (Nat.le_add_right _ _)
  unfold parseSegmentWithIndices
  rw [htext, List.takeWhile_append_of_pos hname, List.dropWhile_append_of_pos hname, hbehind.1,
    hbehind.2, List.append_nil]
  exact congrArg (PathSegment.mk (String.ofList segment.name) nullSafe) hread

/-- **What the code makes of a text** whose indexes close no brackets. -/
theorem parseFieldPathFrom_text (h : segment.Readable) (hparts : ∀ part ∈ parts, part.2.Readable)
    (hfuel : parts.length < fuel) :
    parseFieldPathFrom fuel previous nullSafe (segment.text ++ partsText parts) =
      readParts nullSafe segment parts := by
  induction parts generalizing segment fuel previous nullSafe with
  | nil =>
    obtain ⟨fuel, rfl⟩ := Nat.exists_eq_succ_of_ne_zero (Nat.ne_zero_of_lt hfuel)
    have hsegment := @parseSegment_text segment nullSafe [] h nofun (.inl rfl)
    rw [List.append_nil] at hsegment
    show parseFieldPathFrom (fuel + 1) previous nullSafe (segment.text ++ []) = _
    rw [List.append_nil, parseFieldPathFrom_last h.text_ne_nil h.scanSegment_end, hsegment]
    rfl
  | cons part parts ih =>
    obtain ⟨nullSafe', segment'⟩ := part
    obtain ⟨fuel, rfl⟩ := Nat.exists_eq_succ_of_ne_zero (Nat.ne_zero_of_lt hfuel)
    rw [readParts]
    by_cases hopened : segment.opened = 0
    · -- the separator is found
      have hsegment := @parseSegment_text segment nullSafe [] h nofun (.inl rfl)
      rw [List.append_nil] at hsegment
      rw [if_pos hopened, partsText_cons,
        parseFieldPathFrom_separator h.text_ne_nil (h.scanSegment_separator hopened), hsegment,
        ih (hparts _ List.mem_cons_self) (fun p hp ↦ hparts p (List.mem_cons_of_mem _ hp))
          (Nat.lt_of_succ_lt_succ hfuel)]
    · -- all that follows counts as one segment
      have hne : segment.text ++ partsText ((nullSafe', segment') :: parts) ≠ [] :=
        List.append_ne_nil_of_left_ne_nil h.text_ne_nil _
      have hindices : segment.indices ≠ [] := by
        rintro hnil
        rw [FieldSegment.opened, hnil] at hopened
        exact hopened rfl
      have hhead : (partsText ((nullSafe', segment') :: parts)).head? ≠ some '[' := by
        rw [partsText_cons]
        cases nullSafe' with
        | true => exact fun heq ↦ absurd (Option.some.inj heq) (by decide)
        | false => exact fun heq ↦ absurd (Option.some.inj heq) (by decide)
      rw [if_neg hopened, parseFieldPathFrom_last hne (h.scanSegment_open hopened hparts),
        h.parseSegment_text hhead (.inr hindices)]

end FieldSegment.Readable

/-! ### Indexes -/

namespace FieldIndex

variable {index : FieldIndex} {c : Char}

/-- The index is an integer in range, or a text without backslashes. -/
def IsExact : FieldIndex → Prop
  | integer negative digits _ _ => fitsInt64 (signedValue negative digits) = true
  | string token => '\\' ∉ token.body

/-- The letters of an index besides those between quotes are digits, a sign and quotes. -/
theorem mem_text_iff (hdigit : c.isDigit = false) (hsign : c ≠ '-') (hdouble : c ≠ '"')
    (hsingle : c ≠ '\'') : c ∈ index.text ↔ c ∈ index.body := by
  cases index with
  | integer negative digits hne hdigits =>
    refine iff_of_false ?_ List.not_mem_nil
    have hnot : c ∉ digits := fun hc ↦ by
      rw [List.all_eq_true.mp hdigits c hc] at hdigit
      contradiction
    show c ∉ if negative then '-' :: digits else digits
    cases negative with
    | false => exact hnot
    | true => exact List.not_mem_cons_of_ne_of_not_mem hsign hnot
  | string token =>
    show c ∈ token.quote :: token.body ++ [token.quote] ↔ c ∈ token.body
    have hquote : c ≠ token.quote := by
      rcases token.isQuote with hq | hq
      · rwa [hq]
      · rwa [hq]
    rw [List.mem_append, List.mem_cons, List.mem_singleton]
    tauto

/-- What does not begin with a quote is read as an integer. -/
theorem parseIndex_of_head {text : List Char} (hdouble : text.head? ≠ some '"')
    (hsingle : text.head? ≠ some '\'') :
    parseIndex text =
      match stoll text with
      | some i => { isInteger := true, intIndex := i }
      | none => { isInteger := true, valid := false } := by
  unfold parseIndex
  split
  · exact absurd rfl hdouble
  · exact absurd rfl hsingle
  · rfl

theorem mem_text_bracket : ('[' ∈ index.text ↔ '[' ∈ index.body) ∧
    (']' ∈ index.text ↔ ']' ∈ index.body) :=
  ⟨mem_text_iff (by decide) (by decide) (by decide) (by decide),
    mem_text_iff (by decide) (by decide) (by decide) (by decide)⟩

/-- **An index is read as written** if it is exact. -/
theorem parseIndex_text_iff : parseIndex index.text = index.denoted ↔ index.IsExact := by
  cases index with
  | integer negative digits hne hdigits =>
    have hhead : ∀ c ∈ (if negative then '-' :: digits else digits).head?,
        c = '-' ∨ c.isDigit = true := by
      intro c hc
      cases negative with
      | true =>
        cases hc
        exact .inl rfl
      | false => exact .inr (List.all_eq_true.mp hdigits c (List.mem_of_mem_head? hc))
    have hquote : ∀ q, q ≠ '-' → q.isDigit = false →
        (if negative then '-' :: digits else digits).head? ≠ some q := by
      intro q hsign hdigit hq
      rcases hhead q hq with rfl | htrue
      · exact hsign rfl
      · rw [hdigit] at htrue
        contradiction
    show parseIndex (if negative then '-' :: digits else digits) = _ ↔
      fitsInt64 (signedValue negative digits) = true
    rw [parseIndex_of_head (hquote '"' (by decide) (by decide))
      (hquote '\'' (by decide) (by decide)), stoll_text hne hdigits]
    cases hfits : fitsInt64 (signedValue negative digits) with
    | true => exact iff_of_true rfl rfl
    | false =>
      -- an integer that is out of range is no valid index
      refine iff_of_false (fun heq ↦ ?_) Bool.false_ne_true
      cases congrArg IndexAccess.valid heq
  | string token =>
    have hcode : parseIndex (string token).text =
        { isInteger := false, strIndex := String.ofList token.body } := by
      have hbody : (token.body ++ [token.quote]).dropLast = token.body := List.dropLast_concat
      show parseIndex (token.quote :: token.body ++ [token.quote]) = _
      rcases token.isQuote with hq | hq
      · rw [hq] at hbody ⊢
        show IndexAccess.mk false 0 (String.ofList (token.body ++ ['"']).dropLast) true = _
        rw [hbody]
      · rw [hq] at hbody ⊢
        show IndexAccess.mk false 0 (String.ofList (token.body ++ ['\'']).dropLast) true = _
        rw [hbody]
    rw [hcode]
    show IndexAccess.mk false 0 (String.ofList token.body) true =
      IndexAccess.mk false 0 (String.ofList (unescape token.body)) true ↔ '\\' ∉ token.body
    rw [← unescape_eq_iff token.isBody, IndexAccess.mk.injEq]
    simp only [true_and, and_true]
    constructor
    · intro heq
      exact (String.ofList_injective heq).symm
    · intro heq
      rw [heq]

end FieldIndex

/-! ### References that are read as written -/

section Reading

variable {segment : FieldSegment} {parts : List (Bool × FieldSegment)} {nullSafe : Bool}
  {text body : List Char} {fuel : ℕ} {previous : Option Char}

theorem opened_eq_zero_iff :
    segment.opened = 0 ↔ ∀ index ∈ segment.indices, '[' ∉ index.body := by
  rw [FieldSegment.opened, List.sum_eq_zero_iff_forall_eq_nat]
  constructor
  · intro hzero index hindex hmem
    have hcount := hzero _ (List.mem_map.mpr ⟨index, hindex, rfl⟩)
    rw [List.count_eq_zero] at hcount
    exact hcount (FieldIndex.mem_text_bracket.1.mpr hmem)
  · intro hnone count hcount
    obtain ⟨index, hindex, rfl⟩ := List.mem_map.mp hcount
    rw [List.count_eq_zero]
    exact fun hmem ↦ hnone index hindex (FieldIndex.mem_text_bracket.1.mp hmem)

/-- The parts are read as written if their indexes are, and if no bracket is open before the
last one. -/
theorem readParts_eq_iff :
    readParts nullSafe segment parts =
        segment.denoted nullSafe :: parts.map (fun part ↦ part.2.denoted part.1) ↔
      (∀ s ∈ segment :: parts.map Prod.snd, ∀ index ∈ s.indices, index.IsExact) ∧
        ∀ s ∈ (segment :: parts.map Prod.snd).dropLast, s.opened = 0 := by
  have hsegment : ∀ (s : FieldSegment) (n : Bool),
      s.read n = s.denoted n ↔ ∀ index ∈ s.indices, index.IsExact := by
    intro s n
    show PathSegment.mk _ _ _ = PathSegment.mk _ _ _ ↔ _
    rw [PathSegment.mk.injEq, List.map_inj_left]
    simp only [true_and, FieldIndex.parseIndex_text_iff]
  induction parts generalizing nullSafe segment with
  | nil =>
    show [segment.read nullSafe] = [segment.denoted nullSafe] ↔ _
    rw [List.cons.injEq, hsegment]
    simp
  | cons part parts ih =>
    obtain ⟨nullSafe', segment'⟩ := part
    have hlast : (∀ s ∈ (segment :: segment' :: parts.map Prod.snd).dropLast, s.opened = 0) ↔
        segment.opened = 0 ∧ ∀ s ∈ (segment' :: parts.map Prod.snd).dropLast, s.opened = 0 := by
      rw [List.dropLast_cons_of_ne_nil (List.cons_ne_nil _ _), List.forall_mem_cons]
    rw [readParts, List.map_cons, List.map_cons, hlast, List.forall_mem_cons]
    by_cases hopened : segment.opened = 0
    · have hrest := @ih segment' nullSafe'
      rw [if_pos hopened, List.cons.injEq, hsegment]
      tauto
    · -- the parts that follow are not there
      rw [if_neg hopened]
      refine iff_of_false (fun heq ↦ ?_) fun h ↦ hopened h.2.1
      exact absurd (List.cons.inj heq).2 (List.cons_ne_nil _ _).symm

theorem not_mem_parseIndex (h : ']' ∉ text) : ']' ∉ (parseIndex text).strIndex.toList := by
  have hlast : ∀ {rest : List Char}, ']' ∉ rest → ']' ∉ (String.ofList rest.dropLast).toList := by
    intro rest hrest hmem
    rw [String.toList_ofList] at hmem
    exact hrest (List.mem_of_mem_dropLast hmem)
  unfold parseIndex
  split
  · exact hlast (List.not_mem_of_not_mem_cons h)
  · exact hlast (List.not_mem_of_not_mem_cons h)
  · split <;> exact List.not_mem_nil

/-- No index that is read has a bracket that closes. -/
theorem not_mem_parseIndices : ∀ index ∈ parseIndices fuel text, ']' ∉ index.strIndex.toList := by
  induction fuel generalizing text with
  | zero => exact fun _ hindex ↦ absurd hindex List.not_mem_nil
  | succ fuel ih =>
    unfold parseIndices
    split
    · split
      · intro index hindex
        rcases List.mem_cons.mp hindex with rfl | hindex
        · refine not_mem_parseIndex fun hmem ↦ ?_
          exact absurd (List.mem_takeWhile_imp hmem) (by decide)
        · exact ih index hindex
      · exact fun _ hindex ↦ absurd hindex List.not_mem_nil
    · exact fun _ hindex ↦ absurd hindex List.not_mem_nil

theorem not_mem_parseFieldPathFrom :
    ∀ s ∈ parseFieldPathFrom fuel previous nullSafe text, ∀ index ∈ s.indices,
      ']' ∉ index.strIndex.toList := by
  induction fuel generalizing previous nullSafe text with
  | zero => exact fun _ hs ↦ absurd hs List.not_mem_nil
  | succ fuel ih =>
    intro s hs
    have hsegment : ∀ (segment : List Char),
        s ∈ (if segment = [] then [] else [parseSegmentWithIndices segment nullSafe]) →
        ∀ index ∈ s.indices, ']' ∉ index.strIndex.toList := by
      intro segment hs
      by_cases hne : segment = []
      · rw [if_pos hne] at hs
        exact absurd hs List.not_mem_nil
      · rw [if_neg hne] at hs
        rw [List.mem_singleton.mp hs]
        exact not_mem_parseIndices
    rw [parseFieldPathFrom] at hs
    by_cases hpath : text = []
    · rw [if_pos hpath] at hs
      exact absurd hs List.not_mem_nil
    · rw [if_neg hpath] at hs
      rcases hscan : scanSegment previous 0 text with ⟨segment, _ | ⟨nullSafe', rest⟩⟩
      · rw [hscan] at hs
        exact hsegment segment hs
      · rw [hscan] at hs
        rcases List.mem_append.mp hs with hs | hs
        · exact hsegment segment hs
        · exact ih s hs

theorem mem_unescape (h : ']' ∈ body) : ']' ∈ unescape body := by
  induction body using unescape.induct with
  | case1 c body ih =>
    rw [unescape]
    rcases List.mem_cons.mp h with hslash | h
    · exact absurd hslash (by decide)
    · rcases List.mem_cons.mp h with rfl | h
      · exact List.mem_cons_self
      · exact List.mem_cons_of_mem _ (ih h)
  | case2 c body hescape ih =>
    rw [unescape]
    · rcases List.mem_cons.mp h with rfl | h
      · exact List.mem_cons_self
      · exact List.mem_cons_of_mem _ (ih h)
    · exact hescape
  | case3 => exact absurd h List.not_mem_nil

end Reading

namespace FieldRef

variable {ref : FieldRef}

def parts (ref : FieldRef) : List FieldSegment := ref.head :: ref.rest.map Prod.snd

/-- The indexes of a reference are integers in range or texts without backslashes, none closes a
bracket, and only those of the last segment open one. -/
structure IsExact (ref : FieldRef) : Prop where
  isExact : ∀ s ∈ ref.parts, ∀ index ∈ s.indices, index.IsExact
  closesNone : ∀ s ∈ ref.parts, ∀ index ∈ s.indices, ']' ∉ index.body
  opensNone : ∀ s ∈ ref.parts.dropLast, ∀ index ∈ s.indices, '[' ∉ index.body

theorem isNameChar_of_isIdentifierText {name : List Char} (h : isIdentifierText name = true) :
    name ≠ [] ∧ ∀ c ∈ name, IsNameChar c := by
  have hchar : ∀ c : Char, (c.isAlphanum || c = '_') = true → IsNameChar c := by
    intro c hc
    refine ⟨?_, ?_, ?_, ?_⟩ <;> rintro rfl <;> exact absurd hc (by decide)
  cases name with
  | nil => contradiction
  | cons c name =>
    rw [isIdentifierText, Bool.and_eq_true] at h
    refine ⟨List.cons_ne_nil _ _, fun d hd ↦ ?_⟩
    rcases List.mem_cons.mp hd with rfl | hd
    · refine hchar d ?_
      rw [Char.isAlphanum]
      rcases Bool.or_eq_true_iff.mp h.1 with halpha | hline
      · rw [halpha]
        rfl
      · rw [hline, Bool.or_true]
    · exact hchar d (List.all_eq_true.mp h.2 d hd)

theorem readable_head (h : ∀ index ∈ ref.head.indices, ']' ∉ index.text) : ref.head.Readable := by
  rcases ref.isHead with hname | ⟨name, heq, hname⟩
  · obtain ⟨hne, hchars⟩ := isNameChar_of_isIdentifierText hname
    exact ⟨hne, hchars, h⟩
  · obtain ⟨-, hchars⟩ := isNameChar_of_isIdentifierText hname
    refine ⟨by rw [heq]; exact List.cons_ne_nil _ _, fun c hc ↦ ?_, h⟩
    rw [heq] at hc
    rcases List.mem_cons.mp hc with rfl | hc
    · exact ⟨by decide, by decide, by decide, by decide⟩
    · exact hchars c hc

theorem length_rest_lt (h : ref.head.Readable) : ref.rest.length < ref.text.length := by
  have hparts : ∀ parts : List (Bool × FieldSegment), parts.length ≤ (partsText parts).length := by
    intro parts
    induction parts with
    | nil => exact le_rfl
    | cons part parts ih =>
      obtain ⟨nullSafe, segment⟩ := part
      have hsep : 1 ≤ (if nullSafe then ['!', '.'] else ['.']).length := by
        cases nullSafe <;> decide
      rw [partsText_cons, List.length_append, List.length_append, List.length_cons]
      omega
  have hhead : 0 < ref.head.text.length := List.length_pos_of_ne_nil h.text_ne_nil
  rw [text, List.length_append]
  have hrest := hparts ref.rest
  omega

/-- **A field reference is read as written** exactly when it is exact. -/
theorem parseFieldPath_text_iff (ref : FieldRef) :
    parseFieldPath (String.ofList ref.text) = ref.segments ↔ ref.IsExact := by
  have hpath : parseFieldPath (String.ofList ref.text) =
      parseFieldPathFrom ref.text.length none false ref.text := by
    rw [parseFieldPath, String.toList_ofList, String.length_ofList]
  rw [hpath]
  by_cases hclosed : ∀ s ∈ ref.parts, ∀ index ∈ s.indices, ']' ∉ index.body
  · have htext : ∀ s ∈ ref.parts, ∀ index ∈ s.indices, ']' ∉ index.text :=
      fun s hs index hindex hmem ↦
        hclosed s hs index hindex (FieldIndex.mem_text_bracket.2.mp hmem)
    have hhead := readable_head (htext ref.head List.mem_cons_self)
    have hrest : ∀ part ∈ ref.rest, part.2.Readable := by
      intro part hpart
      obtain ⟨hne, hchars⟩ := isNameChar_of_isIdentifierText (ref.isName part hpart)
      exact ⟨hne, hchars, htext part.2
        (List.mem_cons_of_mem _ (List.mem_map.mpr ⟨part, hpart, rfl⟩))⟩
    have hread := @FieldSegment.Readable.parseFieldPathFrom_text ref.head ref.rest ref.text.length
      none false hhead hrest (length_rest_lt hhead)
    rw [text] at hread ⊢
    rw [hread, segments, readParts_eq_iff]
    simp only [opened_eq_zero_iff]
    exact ⟨fun h ↦ ⟨h.1, hclosed, h.2⟩, fun h ↦ ⟨h.isExact, h.opensNone⟩⟩
  · -- an index with such a bracket is never read
    refine iff_of_false (fun heq ↦ hclosed fun s hs index hindex hmem ↦ ?_) fun h ↦
      hclosed h.closesNone
    have hall := heq ▸ @not_mem_parseFieldPathFrom false ref.text ref.text.length none
    have hsegment : ∃ n, s.denoted n ∈ ref.segments := by
      rcases List.mem_cons.mp hs with rfl | hs
      · exact ⟨false, List.mem_cons_self⟩
      · obtain ⟨part, hpart, rfl⟩ := List.mem_map.mp hs
        exact ⟨part.1, List.mem_cons_of_mem _ (List.mem_map.mpr ⟨part, hpart, rfl⟩)⟩
    obtain ⟨n, hn⟩ := hsegment
    have hnone := hall _ hn index.denoted (List.mem_map.mpr ⟨index, hindex, rfl⟩)
    cases index with
    | integer => exact List.not_mem_nil hmem
    | string token =>
      refine hnone ?_
      show ']' ∈ (String.ofList (unescape token.body)).toList
      rw [String.toList_ofList]
      exact mem_unescape hmem

/-- A bracket in a quoted index hides the name after it, or ends the index early. -/
theorem misread_references :
    (∃ ref : FieldRef, ref.text = "a[\"[\"].b".toList ∧
      ref.segments.map PathSegment.name = ["a", "b"] ∧
      (parseFieldPath (String.ofList ref.text)).map PathSegment.name = ["a"]) ∧
    ∃ ref : FieldRef, ref.text = "a[\"x]y\"]".toList ∧
      ref.segments.flatMap PathSegment.indices = [{ isInteger := false, strIndex := "x]y" }] ∧
      (parseFieldPath (String.ofList ref.text)).flatMap PathSegment.indices =
        [{ isInteger := false, strIndex := "" }] := by
  constructor
  · refine ⟨⟨⟨['a'], [.string ⟨'"', ['['], .inl rfl, by decide⟩]⟩, [(false, ⟨['b'], []⟩)],
      .inl (by decide), by decide⟩, by decide, by decide, by decide +kernel⟩
  · refine ⟨⟨⟨['a'], [.string ⟨'"', ['x', ']', 'y'], .inl rfl, by decide⟩]⟩, [],
      .inl (by decide), by decide⟩, by decide, by decide, by decide +kernel⟩

end FieldRef

end RulesForge
