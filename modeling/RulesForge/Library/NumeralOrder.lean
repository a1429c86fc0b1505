import Mathlib.Data.String.Basic
import Mathlib.Tactic.FieldSimp
import Mathlib.Tactic.Linarith
import Mathlib.Tactic.Positivity
import RulesForge.Library.Delimited

/-!
# The order of numerals as texts

Texts are compared letter by letter, the shorter one first where one is a prefix of the other.
Numerals with equally many digits stand in the order of their values (`compare_digits`). With
different numbers of digits the longer one is **cut** to the length of the shorter, and what
decides a tie is the letter that follows the shorter one (`compare_cut`).

After a point the order of the texts is that of the fractions, provided that no fraction ends in a
zero (`compare_fraction`).

`Numeral.compare_text_iff` puts these together: it says which two numerals, with signs, whole parts
and fractions, stand in the order of their values.
-/

namespace RulesForge

/-! ### Texts -/

theorem compare_list_eq_lt {a b : List Char} : compare a b = .lt ↔ a < b := by
  induction a generalizing b with
  | nil => cases b <;> simp
  | cons c a ih =>
    cases b with
    | nil => simp
    | cons d b =>
      rw [List.cons_lt_cons_iff, ← ih, List.compare_eq_compareLex, List.compareLex_cons_cons,
        Ordering.then_eq_lt, compare_lt_iff_lt, compare_eq_iff_eq]

theorem compare_list_swap (a b : List Char) : compare b a = (compare a b).swap :=
  Std.OrientedCmp.eq_swap

/-- Strings are compared as lists of letters. -/
theorem compare_string (s t : String) : compare s t = compare s.toList t.toList := by
  rcases lt_trichotomy s t with h | h | h
  · rw [compare_lt_iff_lt.mpr h, compare_list_eq_lt.mpr (String.lt_iff.mp h)]
  · rw [h, compare_eq_iff_eq.mpr rfl]
    exact (Std.ReflCmp.compare_self).symm
  · rw [compare_gt_iff_gt.mpr h, compare_list_swap, compare_list_eq_lt.mpr (String.lt_iff.mp h)]
    rfl

theorem compare_cons (c d : Char) (a b : List Char) :
    compare (c :: a) (d :: b) = (compare c d).then (compare a b) :=
  List.compareLex_cons_cons

@[simp]
theorem compare_cons_self (c : Char) (a b : List Char) :
    compare (c :: a) (c :: b) = compare a b := by
  rw [compare_cons, compare_eq_iff_eq.mpr rfl]
  rfl

@[simp]
theorem compare_nil_cons (c : Char) (a : List Char) : compare [] (c :: a) = .lt := rfl

@[simp]
theorem compare_cons_nil (c : Char) (a : List Char) : compare (c :: a) [] = .gt := rfl

@[simp]
theorem compare_append_self (a x y : List Char) : compare (a ++ x) (a ++ y) = compare x y := by
  induction a with
  | nil => rfl
  | cons c a ih => rw [List.cons_append, List.cons_append, compare_cons_self, ih]

/-- Texts with fronts of equal length: the fronts decide, or else what follows. -/
theorem compare_append {a b : List Char} (hlength : a.length = b.length) (x y : List Char) :
    compare (a ++ x) (b ++ y) = (compare a b).then (compare x y) := by
  induction a generalizing b with
  | nil =>
    obtain rfl : b = [] := List.length_eq_zero_iff.mp hlength.symm
    rfl
  | cons c a ih =>
    cases b with
    | nil => cases hlength
    | cons d b =>
      rw [List.cons_append, List.cons_append, compare_cons, compare_cons, ih (by simpa using hlength),
        Ordering.then_assoc]

/-! ### Digits -/

/-- The value of a letter as a digit. -/
def digitValue (c : Char) : ℕ := c.toNat - '0'.toNat

/-- The number that a word of digits stands for. -/
def numeralValue (a : List Char) : ℕ := Nat.ofDigitChars 10 a 0

/-- A word of digits. -/
def Digits (a : List Char) : Prop := ∀ c ∈ a, c.isDigit = true

theorem Digits.append {a b : List Char} (ha : Digits a) (hb : Digits b) : Digits (a ++ b) :=
  List.forall_mem_append.mpr ⟨ha, hb⟩

theorem digits_replicate (n : ℕ) : Digits (List.replicate n '0') := by
  intro c hc
  rw [List.eq_of_mem_replicate hc]
  rfl

theorem digits_toDigits (n : ℕ) : Digits (Nat.toDigits 10 n) :=
  fun _ hc ↦ isDigit_of_mem_toDigits_ten hc

theorem toNat_of_isDigit {c : Char} (hc : c.isDigit = true) : 48 ≤ c.toNat ∧ c.toNat ≤ 57 := by
  simp only [Char.isDigit, ge_iff_le, Bool.and_eq_true, decide_eq_true_eq] at hc
  exact hc

theorem digitValue_lt {c : Char} (hc : c.isDigit = true) : digitValue c < 10 := by
  have := toNat_of_isDigit hc
  show c.toNat - 48 < 10
  omega

theorem compare_digit {c d : Char} (hc : c.isDigit = true) (hd : d.isDigit = true) :
    compare c d = compare (digitValue c) (digitValue d) := by
  have hc' := toNat_of_isDigit hc
  have hd' := toNat_of_isDigit hd
  have hlt : ∀ {c d : Char}, c < d ↔ c.toNat < d.toNat := Iff.rfl
  rcases lt_trichotomy c d with h | h | h
  · have hvalue : digitValue c < digitValue d := by
      have := hlt.mp h
      show c.toNat - 48 < d.toNat - 48
      omega
    rw [compare_lt_iff_lt.mpr h, compare_lt_iff_lt.mpr hvalue]
  · rw [h, compare_eq_iff_eq.mpr rfl, compare_eq_iff_eq.mpr rfl]
  · have hvalue : digitValue d < digitValue c := by
      have := hlt.mp h
      show d.toNat - 48 < c.toNat - 48
      omega
    rw [compare_gt_iff_gt.mpr h, compare_gt_iff_gt.mpr hvalue]

@[simp]
theorem numeralValue_nil : numeralValue [] = 0 := rfl

@[simp]
theorem numeralValue_toDigits (n : ℕ) : numeralValue (Nat.toDigits 10 n) = n :=
  Nat.ofDigitChars_ten_toDigits

theorem numeralValue_append (a b : List Char) :
    numeralValue (a ++ b) = 10 ^ b.length * numeralValue a + numeralValue b := by
  rw [numeralValue, Nat.ofDigitChars_append, Nat.ofDigitChars_eq_ofDigitChars_zero]
  rfl

theorem numeralValue_cons (c : Char) (a : List Char) :
    numeralValue (c :: a) = 10 ^ a.length * digitValue c + numeralValue a := by
  have hone : numeralValue [c] = digitValue c := by
    show 10 * 0 + (c.toNat - '0'.toNat) = _
    rw [Nat.mul_zero, Nat.zero_add]
    rfl
  rw [← List.singleton_append, numeralValue_append, hone]

@[simp]
theorem numeralValue_replicate (n : ℕ) : numeralValue (List.replicate n '0') = 0 := by
  rw [numeralValue, Nat.ofDigitChars_replicate_zero, Nat.mul_zero]

theorem numeralValue_lt {a : List Char} (ha : Digits a) : numeralValue a < 10 ^ a.length := by
  induction a with
  | nil => exact Nat.one_pos
  | cons c a ih =>
    have hc := digitValue_lt (ha c List.mem_cons_self)
    have ha := ih fun d hd ↦ ha d (List.mem_cons_of_mem c hd)
    have hmul : 10 ^ a.length * digitValue c ≤ 10 ^ a.length * 9 :=
      Nat.mul_le_mul_left _ (Nat.lt_succ_iff.mp hc)
    rw [numeralValue_cons, List.length_cons, pow_succ]
    omega

/-- **Numerals with equally many digits** stand in the order of their values. -/
theorem compare_digits {a b : List Char} (ha : Digits a) (hb : Digits b)
    (hlength : a.length = b.length) : compare a b = compare (numeralValue a) (numeralValue b) := by
  induction a generalizing b with
  | nil =>
    obtain rfl : b = [] := List.length_eq_zero_iff.mp hlength.symm
    rfl
  | cons c a ih =>
    cases b with
    | nil => cases hlength
    | cons d b =>
      have hlength : a.length = b.length := by simpa using hlength
      obtain ⟨hc, ha⟩ := List.forall_mem_cons.mp ha
      obtain ⟨hd, hb⟩ := List.forall_mem_cons.mp hb
      have hltA := numeralValue_lt ha
      have hltB := numeralValue_lt hb
      rw [compare_cons, compare_digit hc hd, ih ha hb hlength, numeralValue_cons, numeralValue_cons,
        hlength]
      rw [hlength] at hltA
      -- A smaller first digit outweighs whatever follows.
      have hfirst : ∀ {p q u v : ℕ}, p < q → u < 10 ^ b.length →
          10 ^ b.length * p + u < 10 ^ b.length * q + v := by
        intro p q u v hpq hu
        have : 10 ^ b.length * (p + 1) ≤ 10 ^ b.length * q := Nat.mul_le_mul_left _ hpq
        rw [Nat.mul_add, Nat.mul_one] at this
        omega
      rcases lt_trichotomy (digitValue c) (digitValue d) with h | h | h
      · rw [compare_lt_iff_lt.mpr h, compare_lt_iff_lt.mpr (hfirst h hltA)]
        rfl
      · rw [h, compare_eq_iff_eq.mpr rfl, Ordering.eq_then]
        rcases lt_trichotomy (numeralValue a) (numeralValue b) with h' | h' | h'
        · rw [compare_lt_iff_lt.mpr h', compare_lt_iff_lt.mpr (Nat.add_lt_add_left h' _)]
        · rw [h', compare_eq_iff_eq.mpr rfl, compare_eq_iff_eq.mpr rfl]
        · rw [compare_gt_iff_gt.mpr h', compare_gt_iff_gt.mpr (Nat.add_lt_add_left h' _)]
      · rw [compare_gt_iff_gt.mpr h, compare_gt_iff_gt.mpr (hfirst h hltB)]
        rfl

/-- The first digits of a numeral. -/
theorem numeralValue_take {b : List Char} (hb : Digits b) (k : ℕ) :
    numeralValue (b.take k) = numeralValue b / 10 ^ (b.length - k) := by
  have hdrop : Digits (b.drop k) := fun c hc ↦ hb c (List.mem_of_mem_drop hc)
  have hlt := numeralValue_lt hdrop
  rw [List.length_drop] at hlt
  conv_rhs => rw [← List.take_append_drop k b, numeralValue_append, List.length_drop,
    List.take_append_drop]
  rw [Nat.mul_add_div (Nat.pow_pos (by omega)), Nat.div_eq_of_lt hlt, Nat.add_zero]

/-- **Numerals of different lengths**: the longer one is cut, and in a tie the letter after the
shorter one meets a digit. -/
theorem compare_cut {a b x y : List Char} (ha : Digits a) (hb : Digits b)
    (hlength : a.length < b.length) {o : Ordering}
    (ho : ∀ d rest, d.isDigit = true → compare x (d :: rest) = o) :
    compare (a ++ x) (b ++ y) =
      (compare (numeralValue a) (numeralValue b / 10 ^ (b.length - a.length))).then o := by
  have htake : (b.take a.length).length = a.length := List.length_take_of_le hlength.le
  have hdigits : Digits (b.take a.length) := fun c hc ↦ hb c (List.mem_of_mem_take hc)
  have hne : b.drop a.length ≠ [] := by
    rw [ne_eq, List.drop_eq_nil_iff]
    omega
  obtain ⟨d, rest, hdrop⟩ := List.exists_cons_of_ne_nil hne
  have hd : d.isDigit = true := hb d (List.mem_of_mem_drop (hdrop ▸ List.mem_cons_self))
  have hsplit : b ++ y = b.take a.length ++ (d :: (rest ++ y)) := by
    rw [← List.cons_append, ← hdrop, ← List.append_assoc, List.take_append_drop]
  rw [hsplit, compare_append htake.symm, compare_digits ha hdigits htake.symm,
    numeralValue_take hb, ho d _ hd]

/-! ### Padded numbers -/

theorem padDigits_ofNat (width n : ℕ) : padDigits width (n : ℤ) =
    List.replicate (width - (Nat.toDigits 10 n).length) '0' ++ Nat.toDigits 10 n :=
  rfl

theorem digits_padDigits (width n : ℕ) : Digits (padDigits width (n : ℤ)) :=
  (digits_replicate _).append (digits_toDigits n)

theorem numeralValue_padDigits (width n : ℕ) : numeralValue (padDigits width (n : ℤ)) = n := by
  rw [padDigits_ofNat, numeralValue_append, numeralValue_replicate, numeralValue_toDigits,
    Nat.mul_zero, Nat.zero_add]

theorem length_padDigits (width n : ℕ) :
    (padDigits width (n : ℤ)).length = max width (Nat.toDigits 10 n).length := by
  rw [padDigits_ofNat, List.length_append, List.length_replicate]
  omega

/-- A number that fits into the width. -/
theorem length_padDigits_of_lt {width : ℕ} (hwidth : 0 < width) {i : ℤ} (hi : 0 ≤ i)
    (hlt : i < 10 ^ width) : (padDigits width i).length = width := by
  obtain ⟨n, rfl⟩ := Int.eq_ofNat_of_zero_le hi
  have hfits : (Nat.toDigits 10 n).length ≤ width :=
    (Nat.length_toDigits_le_iff (by omega) hwidth).mpr (by exact_mod_cast hlt)
  rw [length_padDigits, max_eq_left hfits]

/-- **Numbers of one width** stand in their order. -/
theorem compare_padDigits {width : ℕ} (hwidth : 0 < width) {i j : ℤ} (hi : 0 ≤ i)
    (hilt : i < 10 ^ width) (hj : 0 ≤ j) (hjlt : j < 10 ^ width) :
    compare (padDigits width i) (padDigits width j) = compare i j := by
  have hlength : (padDigits width i).length = (padDigits width j).length := by
    rw [length_padDigits_of_lt hwidth hi hilt, length_padDigits_of_lt hwidth hj hjlt]
  obtain ⟨m, rfl⟩ := Int.eq_ofNat_of_zero_le hi
  obtain ⟨n, rfl⟩ := Int.eq_ofNat_of_zero_le hj
  rw [compare_digits (digits_padDigits _ _) (digits_padDigits _ _) hlength, numeralValue_padDigits,
    numeralValue_padDigits]
  rcases lt_trichotomy m n with h | h | h
  · rw [compare_lt_iff_lt.mpr h, compare_lt_iff_lt.mpr (Int.ofNat_lt.mpr h)]
  · rw [h, compare_eq_iff_eq.mpr rfl, compare_eq_iff_eq.mpr rfl]
  · rw [compare_gt_iff_gt.mpr h, compare_gt_iff_gt.mpr (Int.ofNat_lt.mpr h)]

/-! ### Fractions -/

/-- The value of digits after a point. -/
def fractionValue : List Char → ℚ
  | [] => 0
  | c :: f => (digitValue c + fractionValue f) / 10

theorem fractionValue_nonneg (f : List Char) : 0 ≤ fractionValue f := by
  induction f with
  | nil => exact le_rfl
  | cons c f ih =>
    show 0 ≤ ((digitValue c : ℚ) + fractionValue f) / 10
    positivity

theorem fractionValue_lt_one {f : List Char} (hf : Digits f) : fractionValue f < 1 := by
  induction f with
  | nil => exact one_pos
  | cons c f ih =>
    obtain ⟨hc, hf⟩ := List.forall_mem_cons.mp hf
    have hdigit : (digitValue c : ℚ) ≤ 9 := by
      exact_mod_cast Nat.lt_succ_iff.mp (digitValue_lt hc)
    have := ih hf
    show ((digitValue c : ℚ) + fractionValue f) / 10 < 1
    linarith

/-- Digits after a point as a numeral over a power of ten. -/
theorem fractionValue_eq (f : List Char) :
    fractionValue f = numeralValue f / 10 ^ f.length := by
  induction f with
  | nil => simp [fractionValue]
  | cons c f ih =>
    rw [fractionValue, ih, numeralValue_cons, List.length_cons, pow_succ]
    push_cast
    field_simp

/-- Zeros at the end of a fraction add nothing. -/
theorem fractionValue_append_zeros (f : List Char) (n : ℕ) :
    fractionValue (f ++ List.replicate n '0') = fractionValue f := by
  rw [fractionValue_eq, fractionValue_eq, numeralValue_append, numeralValue_replicate,
    List.length_append, List.length_replicate, pow_add]
  push_cast
  field_simp
  ring

/-- A fraction that is written without a zero at its end. -/
def Stripped (f : List Char) : Prop := ∀ c ∈ f.getLast?, c ≠ '0'

theorem Stripped.of_cons {c : Char} {f : List Char} (h : Stripped (c :: f)) : Stripped f := by
  cases f with
  | nil => nofun
  | cons d f => simpa [Stripped, List.getLast?_cons_cons] using h

theorem fractionValue_pos {f : List Char} (hf : Digits f) (hstrip : Stripped f) (hne : f ≠ []) :
    0 < fractionValue f := by
  induction f with
  | nil => exact absurd rfl hne
  | cons c f ih =>
    obtain ⟨hc, hf⟩ := List.forall_mem_cons.mp hf
    have hrest := fractionValue_nonneg f
    show 0 < ((digitValue c : ℚ) + fractionValue f) / 10
    by_cases hnil : f = []
    · -- The only digit is not a zero.
      subst hnil
      have hzero : c ≠ '0' := hstrip c rfl
      have hpos : 0 < digitValue c := by
        have hbounds := toNat_of_isDigit hc
        have hne : c.toNat ≠ 48 := fun h ↦ hzero (Char.toNat_inj.mp h)
        show 0 < c.toNat - 48
        omega
      have : (0 : ℚ) < digitValue c := by exact_mod_cast hpos
      positivity
    · have := ih hf hstrip.of_cons hnil
      positivity

/-- **Fractions without zeros at their ends** stand in the order of their values. -/
theorem compare_fraction {f g : List Char} (hf : Digits f) (hg : Digits g) (hf' : Stripped f)
    (hg' : Stripped g) : compare f g = compare (fractionValue f) (fractionValue g) := by
  induction f generalizing g with
  | nil =>
    cases g with
    | nil => exact (compare_eq_iff_eq.mpr rfl).symm
    | cons d g =>
      have hpos := fractionValue_pos hg hg' (List.cons_ne_nil d g)
      exact (compare_lt_iff_lt.mpr hpos).symm
  | cons c f ih =>
    cases g with
    | nil =>
      have hpos := fractionValue_pos hf hf' (List.cons_ne_nil c f)
      exact (compare_gt_iff_gt.mpr hpos).symm
    | cons d g =>
      obtain ⟨hc, hf⟩ := List.forall_mem_cons.mp hf
      obtain ⟨hd, hg⟩ := List.forall_mem_cons.mp hg
      have hfirst : ∀ {c d : Char} {f g : List Char}, Digits f → digitValue c < digitValue d →
          fractionValue (c :: f) < fractionValue (d :: g) := by
        intro c d f g hf hlt
        have hdigit : (digitValue c : ℚ) + 1 ≤ digitValue d := by exact_mod_cast hlt
        have hone := fractionValue_lt_one hf
        have hzero := fractionValue_nonneg g
        show ((digitValue c : ℚ) + fractionValue f) / 10 < (digitValue d + fractionValue g) / 10
        linarith
      rw [compare_cons, compare_digit hc hd, ih hf hg hf'.of_cons hg'.of_cons]
      rcases lt_trichotomy (digitValue c) (digitValue d) with h | h | h
      · rw [compare_lt_iff_lt.mpr h, compare_lt_iff_lt.mpr (hfirst hf h)]
        rfl
      · have hshift : ∀ {p q : ℚ}, p < q → ((digitValue d : ℚ) + p) / 10 < (digitValue d + q) / 10 := by
          intro p q hpq
          linarith
        rw [h, compare_eq_iff_eq.mpr rfl, Ordering.eq_then, fractionValue, fractionValue, h]
        rcases lt_trichotomy (fractionValue f) (fractionValue g) with h' | h' | h'
        · rw [compare_lt_iff_lt.mpr h', compare_lt_iff_lt.mpr (hshift h')]
        · rw [h', compare_eq_iff_eq.mpr rfl, compare_eq_iff_eq.mpr rfl]
        · rw [compare_gt_iff_gt.mpr h', compare_gt_iff_gt.mpr (hshift h')]
      · rw [compare_gt_iff_gt.mpr h, compare_gt_iff_gt.mpr (hfirst hg h)]
        rfl

/-! ### Numerals -/

/-- A fraction with its point; without digits there is no point. -/
def pointed (f : List Char) : List Char := if f = [] then [] else '.' :: f

theorem compare_pointed (f g : List Char) : compare (pointed f) (pointed g) = compare f g := by
  unfold pointed
  by_cases hf : f = []
  · by_cases hg : g = []
    · rw [if_pos hf, if_pos hg, hf, hg]
    · obtain ⟨d, g, rfl⟩ := List.exists_cons_of_ne_nil hg
      rw [if_pos hf, if_neg hg, hf, compare_nil_cons, compare_nil_cons]
  · by_cases hg : g = []
    · obtain ⟨c, f, rfl⟩ := List.exists_cons_of_ne_nil hf
      rw [if_neg hf, if_pos hg, hg, compare_cons_nil, compare_cons_nil]
    · rw [if_neg hf, if_neg hg, compare_cons_self]

/-- What follows a whole part comes before every digit. -/
theorem compare_pointed_digit (f : List Char) {d : Char} (hd : d.isDigit = true)
    (rest : List Char) : compare (pointed f) (d :: rest) = .lt := by
  unfold pointed
  by_cases hf : f = []
  · rw [if_pos hf, compare_nil_cons]
  · have hpoint : '.' < d := by
      have := toNat_of_isDigit hd
      show 46 < d.toNat
      omega
    rw [if_neg hf, compare_cons, compare_lt_iff_lt.mpr hpoint]
    rfl

/-- A number as it is written: a sign, the digits of the whole part, and those of the fraction. -/
structure Numeral where
  negative : Bool
  whole : List Char
  fraction : List Char
  digits_whole : Digits whole
  whole_ne_nil : whole ≠ []
  digits_fraction : Digits fraction
  stripped : Stripped fraction
  pos_of_negative : negative = true → 0 < (numeralValue whole : ℚ) + fractionValue fraction

/-- What the order of two numerals depends on: the value, the whole part without its sign, and how
many digits the whole part is written with. -/
@[ext]
structure NumeralShape where
  value : ℚ
  whole : ℕ
  width : ℕ

namespace NumeralShape

variable (s t : NumeralShape)

/-- The whole part of `s`, cut to the shorter of the two lengths, comes first, or the two are equal
and `s` is the shorter one. -/
def LeadsBelow : Prop :=
  if s.width ≤ t.width then s.whole ≤ t.whole / 10 ^ (t.width - s.width)
  else s.whole / 10 ^ (s.width - t.width) < t.whole

instance : Decidable (s.LeadsBelow t) := inferInstanceAs (Decidable (ite _ _ _))

/-- The texts of two numbers stand in the order of the numbers: the signs differ; or the numbers are
equal and written with equally many digits; or the leading digits of the nearer one to zero come
first, and neither number is negative; or they do not, and both are. -/
def KeepsOrder : Prop :=
  if s.value < 0 ↔ t.value < 0 then
    if s.value = t.value then s.width = t.width
    else if s.value < 0 then
      if s.value < t.value then ¬ t.LeadsBelow s else ¬ s.LeadsBelow t
    else if s.value < t.value then s.LeadsBelow t else t.LeadsBelow s
  else True

instance : Decidable (s.KeepsOrder t) := by
  unfold KeepsOrder
  infer_instance

end NumeralShape

namespace Numeral

variable (m n : Numeral)

/-- The text without the sign. -/
def digits : List Char := m.whole ++ pointed m.fraction

def text : List Char := if m.negative then '-' :: m.digits else m.digits

/-- The value without the sign. -/
def magnitude : ℚ := numeralValue m.whole + fractionValue m.fraction

def value : ℚ := if m.negative then -m.magnitude else m.magnitude

def shape : NumeralShape := ⟨m.value, numeralValue m.whole, m.whole.length⟩

theorem magnitude_nonneg : 0 ≤ m.magnitude :=
  add_nonneg (Nat.cast_nonneg _) (fractionValue_nonneg _)

theorem value_neg_iff : m.value < 0 ↔ m.negative = true := by
  unfold value
  by_cases hneg : m.negative = true
  · have hpos : 0 < m.magnitude := m.pos_of_negative hneg
    simp [hneg, hpos]
  · simp [hneg, m.magnitude_nonneg]

variable {m n}

/-- The whole parts of numbers in order are in order. -/
theorem whole_le_of_magnitude_lt (h : m.magnitude < n.magnitude) :
    numeralValue m.whole ≤ numeralValue n.whole := by
  by_contra hlt
  have hle : (numeralValue n.whole : ℚ) + 1 ≤ numeralValue m.whole := by
    exact_mod_cast Nat.lt_of_not_le hlt
  have hone := fractionValue_lt_one n.digits_fraction
  have hzero := fractionValue_nonneg m.fraction
  unfold magnitude at h
  linarith

/-- With equally long whole parts the texts stand in the order of the values. -/
theorem compare_digits_of_width_eq (hwidth : m.whole.length = n.whole.length) :
    compare m.digits n.digits = compare m.magnitude n.magnitude := by
  have hwhole : ∀ {m n : Numeral}, numeralValue m.whole < numeralValue n.whole →
      m.magnitude < n.magnitude := by
    intro m n h
    have hle : (numeralValue m.whole : ℚ) + 1 ≤ numeralValue n.whole := by exact_mod_cast h
    have hone := fractionValue_lt_one m.digits_fraction
    have hzero := fractionValue_nonneg n.fraction
    unfold magnitude
    linarith
  rw [digits, digits, compare_append hwidth, compare_digits m.digits_whole n.digits_whole hwidth,
    compare_pointed, compare_fraction m.digits_fraction n.digits_fraction m.stripped n.stripped]
  rcases lt_trichotomy (numeralValue m.whole) (numeralValue n.whole) with h | h | h
  · rw [compare_lt_iff_lt.mpr h, compare_lt_iff_lt.mpr (hwhole h)]
    rfl
  · rw [h, compare_eq_iff_eq.mpr rfl, Ordering.eq_then, magnitude, magnitude, h]
    rcases lt_trichotomy (fractionValue m.fraction) (fractionValue n.fraction) with h' | h' | h'
    · rw [compare_lt_iff_lt.mpr h', compare_lt_iff_lt.mpr (add_lt_add_right h' _)]
    · rw [h', compare_eq_iff_eq.mpr rfl, compare_eq_iff_eq.mpr rfl]
    · rw [compare_gt_iff_gt.mpr h', compare_gt_iff_gt.mpr (add_lt_add_right h' _)]
  · rw [compare_gt_iff_gt.mpr h, compare_gt_iff_gt.mpr (hwhole h)]
    rfl

/-- With a shorter whole part the leading digits decide. -/
theorem compare_digits_of_width_lt (hwidth : m.whole.length < n.whole.length) :
    compare m.digits n.digits = (compare (numeralValue m.whole)
      (numeralValue n.whole / 10 ^ (n.whole.length - m.whole.length))).then .lt :=
  compare_cut m.digits_whole n.digits_whole hwidth fun _ rest hd ↦
    compare_pointed_digit m.fraction hd rest

/-- Texts are equal exactly if the numbers are and are written with equally many digits. -/
theorem compare_digits_eq_iff (h : m.magnitude = n.magnitude) :
    compare m.digits n.digits = .eq ↔ m.whole.length = n.whole.length := by
  rcases lt_trichotomy m.whole.length n.whole.length with hwidth | hwidth | hwidth
  · rw [compare_digits_of_width_lt hwidth]
    simp [Ordering.then_eq_eq, hwidth.ne]
  · rw [compare_digits_of_width_eq hwidth, h, compare_eq_iff_eq.mpr rfl]
    simp [hwidth]
  · rw [compare_list_swap, compare_digits_of_width_lt hwidth]
    simp [Ordering.swap_eq_eq, Ordering.then_eq_eq, hwidth.ne']

/-- The nearer number to zero comes first exactly if its leading digits do. -/
theorem compare_digits_eq_lt_iff (h : m.magnitude < n.magnitude) :
    compare m.digits n.digits = .lt ↔ m.shape.LeadsBelow n.shape := by
  have hbelow : m.shape.LeadsBelow n.shape ↔ if m.whole.length ≤ n.whole.length then
      numeralValue m.whole ≤ numeralValue n.whole / 10 ^ (n.whole.length - m.whole.length)
    else numeralValue m.whole / 10 ^ (m.whole.length - n.whole.length) < numeralValue n.whole := Iff.rfl
  rw [hbelow]
  rcases lt_trichotomy m.whole.length n.whole.length with hwidth | hwidth | hwidth
  · rw [compare_digits_of_width_lt hwidth, if_pos hwidth.le, Ordering.then_eq_lt,
      compare_lt_iff_lt, compare_eq_iff_eq, le_iff_lt_or_eq]
    simp
  · have hle := whole_le_of_magnitude_lt h
    rw [compare_digits_of_width_eq hwidth, compare_lt_iff_lt, if_pos hwidth.le, hwidth,
      Nat.sub_self, pow_zero, Nat.div_one]
    exact iff_of_true h hle
  · rw [compare_list_swap, compare_digits_of_width_lt hwidth, if_neg hwidth.not_ge,
      Ordering.swap_eq_lt, Ordering.then_eq_gt, compare_gt_iff_gt]
    simp

theorem compare_digits_eq_gt_iff (h : m.magnitude < n.magnitude) :
    compare m.digits n.digits = .gt ↔ ¬ m.shape.LeadsBelow n.shape := by
  have hne : compare m.digits n.digits ≠ .eq := by
    rcases lt_trichotomy m.whole.length n.whole.length with hwidth | hwidth | hwidth
    · rw [compare_digits_of_width_lt hwidth]
      simp [Ordering.then_eq_eq]
    · rw [compare_digits_of_width_eq hwidth, compare_lt_iff_lt.mpr h]
      nofun
    · rw [compare_list_swap, compare_digits_of_width_lt hwidth]
      simp [Ordering.swap_eq_eq, Ordering.then_eq_eq]
  rw [← compare_digits_eq_lt_iff h]
  cases hcompare : compare m.digits n.digits with
  | eq => exact absurd hcompare hne
  | lt => simp
  | gt => simp

/-- The text of a negative number comes before that of another. -/
theorem compare_minus (m n : Numeral) : compare ('-' :: m.digits) n.digits = .lt := by
  obtain ⟨d, whole, hwhole⟩ := List.exists_cons_of_ne_nil n.whole_ne_nil
  have hd : d.isDigit = true := n.digits_whole d (hwhole ▸ List.mem_cons_self)
  have hminus : '-' < d := by
    have := toNat_of_isDigit hd
    show 45 < d.toNat
    omega
  rw [digits.eq_def n, hwhole, List.cons_append, compare_cons, compare_lt_iff_lt.mpr hminus]
  rfl

/-- **When numerals stand in the order of their values.** -/
theorem compare_text_iff (m n : Numeral) :
    compare m.text n.text = compare m.value n.value ↔ m.shape.KeepsOrder n.shape := by
  show _ ↔ if m.value < 0 ↔ n.value < 0 then
      if m.value = n.value then m.whole.length = n.whole.length
      else if m.value < 0 then
        if m.value < n.value then ¬ n.shape.LeadsBelow m.shape else ¬ m.shape.LeadsBelow n.shape
      else if m.value < n.value then m.shape.LeadsBelow n.shape else n.shape.LeadsBelow m.shape
    else True
  by_cases hm : m.value < 0
  · have hmneg := m.value_neg_iff.mp hm
    have hmvalue : m.value = -m.magnitude := if_pos hmneg
    have hmtext : m.text = '-' :: m.digits := if_pos hmneg
    by_cases hn : n.value < 0
    · -- Both are negative, and the order turns round.
      have hnneg := n.value_neg_iff.mp hn
      have hnvalue : n.value = -n.magnitude := if_pos hnneg
      have hntext : n.text = '-' :: n.digits := if_pos hnneg
      rw [if_pos (iff_of_true hm hn), if_pos hm, hmtext, hntext, compare_cons_self]
      rcases lt_trichotomy m.value n.value with h | h | h
      · have hlt : n.magnitude < m.magnitude := by linarith
        rw [if_neg h.ne, if_pos h, compare_lt_iff_lt.mpr h, compare_list_swap, Ordering.swap_eq_lt,
          compare_digits_eq_gt_iff hlt]
      · have heq : m.magnitude = n.magnitude := by linarith
        rw [if_pos h, compare_eq_iff_eq.mpr h, compare_digits_eq_iff heq]
      · have hlt : m.magnitude < n.magnitude := by linarith
        rw [if_neg h.ne', if_neg h.not_gt, compare_gt_iff_gt.mpr h, compare_digits_eq_gt_iff hlt]
    · have h : m.value < n.value := hm.trans_le (not_lt.mp hn)
      have hntext : n.text = n.digits := if_neg (n.value_neg_iff.not.mp hn)
      rw [if_neg fun hiff ↦ hn (hiff.mp hm), hmtext, hntext, compare_minus, compare_lt_iff_lt.mpr h]
      exact iff_of_true rfl trivial
  · have hmpos := m.value_neg_iff.not.mp hm
    have hmvalue : m.value = m.magnitude := if_neg hmpos
    have hmtext : m.text = m.digits := if_neg hmpos
    by_cases hn : n.value < 0
    · have h : n.value < m.value := hn.trans_le (not_lt.mp hm)
      have hntext : n.text = '-' :: n.digits := if_pos (n.value_neg_iff.mp hn)
      rw [if_neg fun hiff ↦ hm (hiff.mpr hn), hmtext, hntext, compare_list_swap, compare_minus,
        compare_gt_iff_gt.mpr h]
      exact iff_of_true rfl trivial
    · have hnpos := n.value_neg_iff.not.mp hn
      have hnvalue : n.value = n.magnitude := if_neg hnpos
      have hntext : n.text = n.digits := if_neg hnpos
      rw [if_pos (iff_of_false hm hn), if_neg hm, hmtext, hntext]
      rcases lt_trichotomy m.value n.value with h | h | h
      · have hlt : m.magnitude < n.magnitude := by linarith
        rw [if_neg h.ne, if_pos h, compare_lt_iff_lt.mpr h, compare_digits_eq_lt_iff hlt]
      · have heq : m.magnitude = n.magnitude := by linarith
        rw [if_pos h, compare_eq_iff_eq.mpr h, compare_digits_eq_iff heq]
      · have hlt : n.magnitude < m.magnitude := by linarith
        rw [if_neg h.ne', if_neg h.not_gt, compare_gt_iff_gt.mpr h, compare_list_swap,
          Ordering.swap_eq_gt, compare_digits_eq_lt_iff hlt]

end Numeral

end RulesForge
