import RulesForge.Core.Constraint

/-!
# Facts, field paths and tokens

Facts with their field lookup (`Fact::get_field`, `src/core/rfl_rete_defs.cpp`) and the
tokens of the network (`include/core/token.hpp`).

Facts are objects shared by pointer and mutated in place, so everything that reads a fact
takes the **heap**, the contents of all fact objects. A token is a chain of facts; it is
immutable and never freed, and carries its address, so that equality of tokens is equality
of the source's pointers.
-/

namespace RulesForge

/-! ### Facts -/

structure Fact where
  id : ℤ := 0
  type : String := ""
  fields : List (String × ConstraintValue) := []

/-- The contents of all fact objects. -/
abbrev Heap := FactPtr → Fact

structure IndexAccess where
  isInteger : Bool
  intIndex : ℤ := 0
  strIndex : String := ""
  valid : Bool := true
  deriving DecidableEq, Repr

structure PathSegment where
  name : String := ""
  nullSafe : Bool
  indices : List IndexAccess := []
  deriving DecidableEq, Repr

/-! ### Parsing field paths -/

/-- `std::isspace` in the default locale. -/
def isSpace (c : Char) : Bool :=
  c = ' ' || (9 ≤ c.toNat && c.toNat ≤ 13)

/-- `std::stoll`: leading white space, a sign, then as many digits as there are. -/
def stoll (text : List Char) : Option ℤ :=
  let text := text.dropWhile isSpace
  let (negative, text) :=
    match text with
    | '-' :: rest => (true, rest)
    | '+' :: rest => (false, rest)
    | _ => (false, text)
  let digits := text.takeWhile Char.isDigit
  let magnitude := digits.foldl (fun n c ↦ 10 * n + (c.toNat - '0'.toNat)) 0
  let value : ℤ := if negative then -magnitude else magnitude
  if digits = [] ∨ value < -2 ^ 63 ∨ 2 ^ 63 ≤ value then none else some value

/-- The index between a pair of brackets: quoted, or an integer. -/
def parseIndex (text : List Char) : IndexAccess :=
  match text with
  | '"' :: rest => { isInteger := false, strIndex := String.ofList rest.dropLast }
  | '\'' :: rest => { isInteger := false, strIndex := String.ofList rest.dropLast }
  | _ =>
    match stoll text with
    | some i => { isInteger := true, intIndex := i }
    | none => { isInteger := true, valid := false }

/-- The run of bracketed indices at the front of `text`; it ends at the first character
that opens no bracket, or at a bracket that is never closed. -/
def parseIndices : ℕ → List Char → List IndexAccess
  | 0, _ => []
  | fuel + 1, text =>
    match text with
    | '[' :: rest =>
      if ']' ∈ rest then
        parseIndex (rest.takeWhile (· ≠ ']')) ::
          parseIndices fuel (rest.dropWhile (· ≠ ']')).tail
      else []
    | _ => []

def parseSegmentWithIndices (segment : List Char) (nullSafe : Bool) : PathSegment :=
  let indices := segment.dropWhile (· ≠ '[')
  { name := String.ofList (segment.takeWhile (· ≠ '['))
    nullSafe := nullSafe
    indices := parseIndices indices.length indices }

/-- The scan for the next separator outside brackets: the segment before it, whether it is
null safe, and what follows it. -/
def scanSegment : Option Char → ℕ → List Char → List Char × Option (Bool × List Char)
  | _, _, [] => ([], none)
  | previous, depth, c :: rest =>
    let more (depth : ℕ) :=
      let (segment, separator) := scanSegment (some c) depth rest
      (c :: segment, separator)
    if c = '[' then more (depth + 1)
    else if c = ']' then more (depth - 1)
    else if depth = 0 ∧ c = '!' ∧ rest.head? = some '.' then ([], some (true, rest.tail))
    else if depth = 0 ∧ c = '.' ∧ previous ≠ some '!' then ([], some (false, rest))
    else more depth

def parseFieldPathFrom : ℕ → Option Char → Bool → List Char → List PathSegment
  | 0, _, _, _ => []
  | fuel + 1, previous, nullSafe, path =>
    if path = [] then [] else
    let (segment, separator) := scanSegment previous 0 path
    let parsed := if segment = [] then [] else [parseSegmentWithIndices segment nullSafe]
    match separator with
    | none => parsed
    | some (nextNullSafe, rest) =>
      parsed ++ parseFieldPathFrom fuel (some '.') nextNullSafe rest

/-- `parse_field_path`. Each round consumes a character, so the length bounds the rounds. -/
def parseFieldPath (path : String) : List PathSegment :=
  parseFieldPathFrom path.length none false path.toList

/-! ### Field lookup -/

/-- The value a failed access yields: nil when the segment is null safe. -/
def nilIfNullSafe (nullSafe : Bool) : Option ConstraintValue :=
  if nullSafe then some .nil else none

/-- A possibly negative index, counted from the end, as a position. -/
def normalizeIndex (index : ℤ) (size : ℕ) : Option ℕ :=
  let index := if index < 0 then size + index else index
  if index < 0 ∨ (size : ℤ) ≤ index then none else some index.toNat

def applyIndex (heap : Heap) (value : ConstraintValue) (idx : IndexAccess) (nullSafe : Bool) :
    Option ConstraintValue :=
  if !idx.valid then none else
  let fail := nilIfNullSafe nullSafe
  match value with
  | .factList facts =>
    if idx.isInteger then
      match (normalizeIndex idx.intIndex facts.length).bind (facts[·]?) with
      | some p => some (.factList [p])
      | none => fail
    else
      let hasKey (p : FactPtr) : Bool :=
        match p, (heap p).fields.lookup "key" with
        | 0, _ => false
        | _, some (.string s) => s = idx.strIndex
        | _, _ => false
      match facts.find? hasKey with
      | some p => some (.factList [p])
      | none => fail
  | .typedList values =>
    if idx.isInteger then
      match (normalizeIndex idx.intIndex values.length).bind (values[·]?) with
      | some v => some v
      | none => fail
    else fail
  | .valueMap entries =>
    let key := if idx.isInteger then .int64 idx.intIndex else .string idx.strIndex
    match entries.find? (fun entry ↦ constraintValueEquals (fun p ↦ (heap p).id) entry.1 key) with
    | some entry => some entry.2
    | none => fail
  | .string s =>
    if idx.isInteger then
      match (normalizeIndex idx.intIndex s.length).bind (s.toList[·]?) with
      | some c => some (.string (String.singleton c))
      | none => fail
    else fail
  | _ => fail

/-- The indices of one segment in turn; an error is the result of the whole lookup. -/
def applyIndices (heap : Heap) (nullSafe : Bool) :
    Option ConstraintValue → List IndexAccess →
      Except (Option ConstraintValue) (Option ConstraintValue)
  | value, [] => .ok value
  | none, _ :: _ => .error (nilIfNullSafe nullSafe)
  | some value, idx :: indices =>
    match applyIndex heap value idx nullSafe with
    | none => .error none
    | some v => applyIndices heap nullSafe (some v) indices

def getCollectionSize : ConstraintValue → Option ℕ
  | .factList facts => some facts.length
  | .typedList values => some values.length
  | .valueSet values => some values.length
  | .valueMap entries => some entries.length
  | .string s => some s.length
  | _ => none

/-- The loop of `Fact::get_field` over the segments of a path, from the fact and the value
reached so far. `size` and `isEmpty` are read off the value, not off a field. -/
def getFieldFrom (heap : Heap) :
    FactPtr → Option ConstraintValue → List PathSegment → Option ConstraintValue
  | _, _, [] => none
  | fact, current, seg :: segments =>
    let pseudo : Option ℕ → Option ConstraintValue := fun size ↦
      match size with
      | some n => some (.int64 n)
      | none => nilIfNullSafe seg.nullSafe
    match current, seg.name with
    | some value, "size" => pseudo (getCollectionSize value)
    | some value, "isEmpty" =>
      pseudo ((getCollectionSize value).map fun n ↦ if n = 0 then 1 else 0)
    | _, _ =>
      let found : Except (Option ConstraintValue) (Option ConstraintValue) :=
        if seg.name = "" then .ok current
        else
          match (heap fact).fields.lookup seg.name with
          | none => .error (nilIfNullSafe seg.nullSafe)
          | some value => .ok (some value)
      match found.bind (applyIndices heap seg.nullSafe · seg.indices) with
      | .error result => result
      | .ok value =>
        match segments, value with
        | [], _ => value
        | _, none => nilIfNullSafe seg.nullSafe
        | next :: _, some (.factList facts) =>
          if next.name = "size" ∨ next.name = "isEmpty" then
            getFieldFrom heap fact value segments
          else
            match facts with
            | [] => some (.typedList [])
            | [p] =>
              if p = 0 then nilIfNullSafe (seg.nullSafe || next.nullSafe)
              else getFieldFrom heap p value segments
            | _ => none
        | next :: _, some .nil => nilIfNullSafe (seg.nullSafe || next.nullSafe)
        | _, some _ => none

/-- Whether a field name is a path rather than a plain name. -/
def isPath (name : String) : Bool :=
  name.toList.any fun c ↦ c = '.' ∨ c = '['

/-- `Fact::get_field`: `this` is the fact's id. -/
def getField (heap : Heap) (fact : FactPtr) (name : String) : Option ConstraintValue :=
  if name = "this" then some (.int64 (heap fact).id)
  else if isPath name then getFieldFrom heap fact none (parseFieldPath name)
  else (heap fact).fields.lookup name

/-! ### Tokens -/

/-- A chain of facts. `root` is the dummy token every chain starts from. -/
inductive TokenWME where
  | root
  | mk (address : ℕ) (parent : TokenWME) (fact : FactPtr)
  deriving DecidableEq, Repr

namespace TokenWME

def depth : TokenWME → ℕ
  | root => 0
  | mk _ parent _ => parent.depth + 1

/-- `Token::get_facts`: the facts of the chain in the order of the patterns. -/
def facts : TokenWME → List FactPtr
  | root => []
  | mk _ parent fact => parent.facts ++ [fact]

/-- `Token::get_fact_at_depth`: the fact at position `d`, null past the end. -/
def getFactAtDepth (w : TokenWME) (d : ℕ) : Option FactPtr :=
  match w.facts[d]? with
  | some 0 => none
  | p => p

/-- `Token::get_fact`: the last fact. -/
def getFact (w : TokenWME) : Option FactPtr :=
  w.getFactAtDepth (w.depth - 1)

@[simp] theorem facts_length (w : TokenWME) : w.facts.length = w.depth := by
  induction w with
  | root => rfl
  | mk a parent fact ih => simp [facts, depth, ih]

theorem mem_facts_of_getFactAtDepth {w : TokenWME} {d : ℕ} {p : FactPtr}
    (h : w.getFactAtDepth d = some p) : p ∈ w.facts := by
  unfold getFactAtDepth at h
  split at h
  · simp at h
  · exact List.mem_of_getElem? h

end TokenWME

end RulesForge
