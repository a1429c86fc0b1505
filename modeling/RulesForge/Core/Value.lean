import Mathlib.Data.List.DropRight
import RulesForge.Library.Double

/-!
# Field values

The values a fact's field can hold (`include/core/value_types.hpp`), their order
`ConstraintValueCompare` with the equivalence `ConstraintValueEquals` it induces, and the
text form `scalar_text` of the scalar alternatives.

Signed and unsigned machine integers are `ℤ` and `ℕ`, and a `std::string` is the string
whose characters are its bytes, so that lengths, positions and the order agree. The three collection alternatives are
shared pointers in the source; here they are their contents, sets and maps listed in the
order of their iteration. A `FactList` holds pointers to facts, so the order of two fact
lists depends on the ids of the facts pointed to: the comparison takes the ids as an
argument. Both orders of a pair are decided in one pass, as an `Ordering`: the source calls
its strict comparison on `(a, b)` and then on `(b, a)`.
-/

namespace RulesForge

/-- The address of a `Fact` object; `0` is the null pointer. -/
abbrev FactPtr := ℕ

structure DateTimeValue where
  year : ℤ
  month : ℤ
  day : ℤ
  hour : ℤ
  minute : ℤ
  second : ℤ
  millisecond : ℤ
  tzOffsetMinutes : ℤ
  hasTimezone : Bool
  deriving DecidableEq, Repr

structure DateValue where
  year : ℤ
  month : ℤ
  day : ℤ
  deriving DecidableEq, Repr

structure TimeValue where
  hour : ℤ
  minute : ℤ
  second : ℤ
  millisecond : ℤ
  deriving DecidableEq, Repr

structure DecimalValue where
  mantissa : ℤ
  scale : ℤ
  deriving DecidableEq, Repr

structure MoneyValue where
  amount : DecimalValue
  currency : String
  deriving DecidableEq, Repr

/-- `std::variant<int64_t, uint64_t>`, the number behind an enumerator. -/
inductive EnumNumericValue where
  | signed (value : ℤ)
  | unsigned (value : ℕ)
  deriving DecidableEq, Repr

structure EnumValue where
  typeName : String
  value : EnumNumericValue
  itemName : String
  deriving DecidableEq, Repr

/-- A field value, with the alternatives of the variant in the source's order. -/
inductive ConstraintValue where
  | string (s : String)
  | int64 (i : ℤ)
  | double (d : Double)
  | factList (facts : List FactPtr)
  | nil
  | typedList (values : List ConstraintValue)
  | valueSet (values : List ConstraintValue)
  | valueMap (entries : List (ConstraintValue × ConstraintValue))
  | uuid (bytes : List UInt8)
  | bool (b : Bool)
  | uint64 (n : ℕ)
  | bytes (bytes : List UInt8)
  | enum (e : EnumValue)
  | dateTime (t : DateTimeValue)
  | date (d : DateValue)
  | time (t : TimeValue)
  | duration (milliseconds : ℤ)
  | decimal (d : DecimalValue)
  | bigInt (digits : String)
  | money (m : MoneyValue)

namespace ConstraintValue

/-- The position of a value's alternative in the variant. -/
def index : ConstraintValue → ℕ
  | string _ => 0
  | int64 _ => 1
  | double _ => 2
  | factList _ => 3
  | nil => 4
  | typedList _ => 5
  | valueSet _ => 6
  | valueMap _ => 7
  | uuid _ => 8
  | bool _ => 9
  | uint64 _ => 10
  | bytes _ => 11
  | enum _ => 12
  | dateTime _ => 13
  | date _ => 14
  | time _ => 15
  | duration _ => 16
  | decimal _ => 17
  | bigInt _ => 18
  | money _ => 19

end ConstraintValue

/-! ### Text forms -/

/-- `std::setw(width)` with fill character `0`. -/
def padded (width : ℕ) (i : ℤ) : String :=
  let digits := (toString i).toList
  String.ofList (List.replicate (width - digits.length) '0' ++ digits)

def formatDate (value : DateValue) : String :=
  padded 4 value.year ++ "-" ++ padded 2 value.month ++ "-" ++ padded 2 value.day

def formatTime (value : TimeValue) : String :=
  padded 2 value.hour ++ ":" ++ padded 2 value.minute ++ ":" ++ padded 2 value.second ++
    if value.millisecond ≠ 0 then "." ++ padded 3 value.millisecond else ""

def formatDatetime (value : DateTimeValue) : String :=
  formatDate ⟨value.year, value.month, value.day⟩ ++ "T" ++
    formatTime ⟨value.hour, value.minute, value.second, value.millisecond⟩ ++
    if value.hasTimezone then
      if value.tzOffsetMinutes = 0 then "Z"
      else
        (if value.tzOffsetMinutes < 0 then "-" else "+") ++
          padded 2 (value.tzOffsetMinutes.natAbs / 60) ++ ":" ++
          padded 2 (value.tzOffsetMinutes.natAbs % 60)
    else ""

/-- The decimal digits of a mantissa with the point `scale` places from the right; trailing
zeros of the fraction, and the point before them, are dropped. -/
def formatDecimal (value : DecimalValue) : String :=
  let digits := (toString value.mantissa.natAbs).toList
  let digits :=
    if value.scale ≤ 0 then digits ++ List.replicate (-value.scale).toNat '0'
    else
      let scale := value.scale.toNat
      let digits := List.replicate (scale + 1 - digits.length) '0' ++ digits
      let whole := digits.take (digits.length - scale)
      let fraction := (digits.drop (digits.length - scale)).rdropWhile (· = '0')
      if fraction = [] then whole else whole ++ '.' :: fraction
  String.ofList (if value.mantissa < 0 ∧ digits ≠ ['0'] then '-' :: digits else digits)

/-- The text of the scalar alternatives that have one. -/
def scalarText : ConstraintValue → Option String
  | .string s => some s
  | .dateTime t => some (formatDatetime t)
  | .date d => some (formatDate d)
  | .time t => some (formatTime t)
  | .decimal d => some (formatDecimal d)
  | .bigInt digits => some digits
  | .money m => some (m.currency ++ " " ++ formatDecimal m.amount)
  | .enum e => if e.itemName = "" then none else some e.itemName
  | _ => none

/-! ### Order -/

namespace EnumNumericValue

/-- The order of `std::variant`: by alternative, then by value. -/
def cmp : EnumNumericValue → EnumNumericValue → Ordering
  | signed a, signed b => compare a b
  | signed _, unsigned _ => .lt
  | unsigned _, signed _ => .gt
  | unsigned a, unsigned b => compare a b

end EnumNumericValue

/-- Enumerators are ordered by type and number; the item's name plays no part. -/
def EnumValue.cmp (a b : EnumValue) : Ordering :=
  (compare a.typeName b.typeName).then (a.value.cmp b.value)

/-- The members of a date-time in declaration order, as its defaulted `<=>` reads them. -/
def DateTimeValue.members (t : DateTimeValue) : List ℤ :=
  [t.year, t.month, t.day, t.hour, t.minute, t.second, t.millisecond, t.tzOffsetMinutes,
    t.hasTimezone.toInt]

def DateValue.members (d : DateValue) : List ℤ :=
  [d.year, d.month, d.day]

def TimeValue.members (t : TimeValue) : List ℤ :=
  [t.hour, t.minute, t.second, t.millisecond]

def DecimalValue.members (d : DecimalValue) : List ℤ :=
  [d.mantissa, d.scale]

def MoneyValue.cmp (a b : MoneyValue) : Ordering :=
  (List.compareLex compare a.amount.members b.amount.members).then
    (compare a.currency b.currency)

/-- What a fact list compares: the id of the fact, or its address while it has none. -/
def factKey (factId : FactPtr → ℤ) (p : FactPtr) : ℤ × ℕ :=
  if p = 0 then (0, 0) else if factId p ≠ 0 then (factId p, 0) else (0, p)

def compareFactKeys (factId : FactPtr → ℤ) (p q : FactPtr) : Ordering :=
  (compare (factKey factId p).1 (factKey factId q).1).then
    (compare (factKey factId p).2 (factKey factId q).2)

mutual

/-- `ConstraintValueCompare` in both directions: `lt` when `a` precedes `b`, `gt` when `b`
precedes `a`, `eq` when neither does. -/
def compareValues (factId : FactPtr → ℤ) : ConstraintValue → ConstraintValue → Ordering
  | .string a, .string b => compare a b
  | .int64 a, .int64 b => compare a b
  | .double a, .double b => a.cmp b
  | .factList a, .factList b => List.compareLex (compareFactKeys factId) a b
  | .nil, .nil => .eq
  | .typedList a, .typedList b => compareValueLists factId a b
  | .valueSet a, .valueSet b => compareValueLists factId a b
  | .valueMap a, .valueMap b => compareEntries factId a b
  | .uuid a, .uuid b => List.compareLex compare a b
  | .bool a, .bool b => compare a b
  | .uint64 a, .uint64 b => compare a b
  | .bytes a, .bytes b => List.compareLex compare a b
  | .enum a, .enum b => a.cmp b
  | .dateTime a, .dateTime b => List.compareLex compare a.members b.members
  | .date a, .date b => List.compareLex compare a.members b.members
  | .time a, .time b => List.compareLex compare a.members b.members
  | .duration a, .duration b => compare a b
  | .decimal a, .decimal b => List.compareLex compare a.members b.members
  | .bigInt a, .bigInt b => compare a b
  | .money a, .money b => a.cmp b
  | a, b => compare a.index b.index

/-- `std::lexicographical_compare` over `compareValues`. -/
def compareValueLists (factId : FactPtr → ℤ) :
    List ConstraintValue → List ConstraintValue → Ordering
  | [], [] => .eq
  | [], _ :: _ => .lt
  | _ :: _, [] => .gt
  | a :: as, b :: bs => (compareValues factId a b).then (compareValueLists factId as bs)

/-- The loop over the entries of two maps, keys before values. -/
def compareEntries (factId : FactPtr → ℤ) :
    List (ConstraintValue × ConstraintValue) → List (ConstraintValue × ConstraintValue) → Ordering
  | [], [] => .eq
  | [], _ :: _ => .lt
  | _ :: _, [] => .gt
  | (k, v) :: as, (k', v') :: bs =>
    ((compareValues factId k k').then (compareValues factId v v')).then
      (compareEntries factId as bs)

end

/-- `ConstraintValueEquals`: neither value precedes the other. -/
def constraintValueEquals (factId : FactPtr → ℤ) (a b : ConstraintValue) : Bool :=
  compareValues factId a b == .eq

end RulesForge
