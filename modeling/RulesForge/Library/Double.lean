import Mathlib.Algebra.Order.Ring.Int
import Mathlib.Tactic.Linarith

/-!
# Double-precision numbers over the dyadic rationals

A double is not-a-number, a signed infinity, or a **finite** value, which is a dyadic
rational; the two signed zeros are one value here, since no operation below tells them
apart (a quotient by zero is left out). The finite part is `Dyadic`, so every definition runs in the kernel.

Integers enter through `Double.ofInt`, which rounds to 53 significant bits, ties to even.
Up to magnitude `2 ^ 53` the rounding is the identity (`roundToInt_of_natAbs_le`), and so
is the addition of two such numbers (`add_ofInt`): sums of integers that stay in that
range are exact.
-/

/-- A binary64 value, up to the sign of zero and the payload of a not-a-number. -/
inductive Double where
  | nan
  | inf (negative : Bool)
  | finite (value : Dyadic)
  deriving DecidableEq

namespace Double

/-- Rounding a natural number to `53` significant bits, ties to even. -/
def roundMagnitude (n : ℕ) : ℕ :=
  let shift := n.log2 + 1 - 53
  let kept := n >>> shift
  let dropped := n % 2 ^ shift
  if 2 ^ shift < 2 * dropped ∨ (2 * dropped = 2 ^ shift ∧ kept % 2 = 1 ∧ shift ≠ 0) then
    (kept + 1) <<< shift
  else
    kept <<< shift

/-- Rounding an integer to `53` significant bits, ties to even. -/
def roundToInt (i : ℤ) : ℤ :=
  if i < 0 then -(roundMagnitude i.natAbs : ℤ) else roundMagnitude i.natAbs

/-- The conversion of an integer to a double. Integers of machine width never overflow. -/
def ofInt (i : ℤ) : Double :=
  finite (Dyadic.ofInt (roundToInt i))

/-- Rounding to `53` significant bits, ties to even. -/
def roundDyadic : Dyadic → Dyadic
  | .zero => .zero
  | .ofOdd n k _ => .ofIntWithPrec (roundToInt n) k

/-- The least magnitude that is rounded to an infinity. -/
def overflowBound : ℤ := 2 ^ 1024

/-- The double nearest to a sum of two doubles. Such a sum is never too small to be rounded to
`53` bits; past the greatest double it is an infinity. -/
def ofSum (x : Dyadic) : Double :=
  let r := roundDyadic x
  if overflowBound ≤ r.toRat then inf false
  else if r.toRat ≤ -overflowBound then inf true
  else finite r

def neg : Double → Double
  | nan => nan
  | inf a => inf !a
  | finite x => finite (-x)

def add : Double → Double → Double
  | finite x, finite y => ofSum (x + y)
  | inf a, inf b => if a = b then inf a else nan
  | inf a, finite _ => inf a
  | finite _, inf b => inf b
  | nan, _ => nan
  | _, nan => nan

/-- The conversion to a signed integer, toward zero; what is no number in range has no value in
the source, and is zero here. -/
def toInt : Double → ℤ
  | finite x => x.toRat.num.tdiv x.toRat.den
  | _ => 0

/-- Strict comparison: every comparison with a not-a-number is false. -/
def lt : Double → Double → Bool
  | nan, _ => false
  | _, nan => false
  | inf a, inf b => a && !b
  | inf a, finite _ => a
  | finite _, inf b => !b
  | finite x, finite y => decide (x < y)

/-- Three-way comparison as two strict comparisons in turn: what is neither below nor
above counts as equal, a not-a-number included. -/
def cmp (x y : Double) : Ordering :=
  if x.lt y then .lt else if y.lt x then .gt else .eq

/-! ### Exact integers -/

theorem roundMagnitude_of_lt {n : ℕ} (h : n < 2 ^ 53) : roundMagnitude n = n := by
  have hshift : n.log2 + 1 - 53 = 0 := by
    rcases Nat.eq_zero_or_pos n with rfl | hn
    · simp
    · have := (Nat.log2_lt (by omega)).mpr h
      omega
  simp [roundMagnitude, hshift, Nat.mod_one]

theorem roundMagnitude_two_pow : roundMagnitude (2 ^ 53) = 2 ^ 53 := by decide

theorem roundMagnitude_of_le {n : ℕ} (h : n ≤ 2 ^ 53) : roundMagnitude n = n := by
  rcases Nat.lt_or_eq_of_le h with h | rfl
  · exact roundMagnitude_of_lt h
  · exact roundMagnitude_two_pow

/-- Integers of magnitude at most `2 ^ 53` are doubles. -/
theorem roundToInt_of_natAbs_le {i : ℤ} (h : i.natAbs ≤ 2 ^ 53) : roundToInt i = i := by
  unfold roundToInt
  rw [roundMagnitude_of_le h]
  split <;> omega

theorem ofInt_of_natAbs_le {i : ℤ} (h : i.natAbs ≤ 2 ^ 53) : ofInt i = finite (Dyadic.ofInt i) := by
  rw [ofInt, roundToInt_of_natAbs_le h]

theorem roundDyadic_ofInt {i : ℤ} (h : i.natAbs ≤ 2 ^ 53) :
    roundDyadic (Dyadic.ofInt i) = Dyadic.ofInt i := by
  unfold Dyadic.ofInt Dyadic.ofIntWithPrec
  split
  · rfl
  · next hi =>
    have hshift : (i >>> i.trailingZeros).natAbs ≤ i.natAbs := by
      rw [Int.shiftRight_eq_div_pow]
      exact Int.natAbs_ediv_le_natAbs _ _
    rw [roundDyadic, roundToInt_of_natAbs_le (hshift.trans h), ← Dyadic.ofOdd_eq_ofIntWithPrec]

/-- **Sums of integers are exact** up to magnitude `2 ^ 53`. -/
theorem add_ofInt {i j : ℤ} (hi : i.natAbs ≤ 2 ^ 53) (hj : j.natAbs ≤ 2 ^ 53)
    (hsum : (i + j).natAbs ≤ 2 ^ 53) : add (ofInt i) (ofInt j) = ofInt (i + j) := by
  have hadd : Dyadic.ofInt i + Dyadic.ofInt j = Dyadic.ofInt (i + j) := by
    rw [← Dyadic.toRat_inj, Dyadic.toRat_add]
    change ((i : Dyadic).toRat + (j : Dyadic).toRat : ℚ) = ((i + j : ℤ) : Dyadic).toRat
    rw [Dyadic.toRat_intCast, Dyadic.toRat_intCast, Dyadic.toRat_intCast, Rat.intCast_add]
  have hrat : (Dyadic.ofInt (i + j)).toRat = ((i + j : ℤ) : ℚ) := Dyadic.toRat_intCast _
  have hbound : (2 : ℤ) ^ 53 < overflowBound := pow_lt_pow_right₀ (by decide) (by decide)
  have hle : ¬ (overflowBound : ℚ) ≤ ((i + j : ℤ) : ℚ) := by
    rw [not_le]
    exact_mod_cast (by omega : (i + j : ℤ) < overflowBound)
  have hge : ¬ ((i + j : ℤ) : ℚ) ≤ -(overflowBound : ℚ) := by
    rw [not_le]
    exact_mod_cast (by omega : -overflowBound < (i + j : ℤ))
  rw [ofInt_of_natAbs_le hi, ofInt_of_natAbs_le hj, ofInt_of_natAbs_le hsum]
  simp only [add, ofSum, hadd, roundDyadic_ofInt hsum, hrat, if_neg hle, if_neg hge]

theorem toInt_ofInt {i : ℤ} (h : i.natAbs ≤ 2 ^ 53) : (ofInt i).toInt = i := by
  have hrat : (Dyadic.ofInt i).toRat = (i : ℚ) := Dyadic.toRat_intCast _
  rw [ofInt_of_natAbs_le h, toInt, hrat]
  simp

/-! ### Comparison -/

theorem lt_asymm {x y : Double} (h : x.lt y = true) : y.lt x = false := by
  cases x <;> cases y <;> simp_all [lt]
  exact Std.le_of_lt h

theorem cmp_swap (x y : Double) : (cmp x y).swap = cmp y x := by
  unfold cmp
  by_cases hxy : x.lt y = true
  · simp [hxy, lt_asymm hxy]
  · by_cases hyx : y.lt x = true <;> simp [hxy, hyx]

/-- Away from not-a-numbers, what counts as equal is equal. -/
theorem cmp_eq_iff {x y : Double} (hx : x ≠ .nan) (hy : y ≠ .nan) :
    x.cmp y = .eq ↔ x = y := by
  cases x with
  | nan => exact absurd rfl hx
  | inf a =>
    cases y with
    | nan => exact absurd rfl hy
    | inf b => cases a <;> cases b <;> simp [cmp, lt]
    | finite y => cases a <;> simp [cmp, lt]
  | finite x =>
    cases y with
    | nan => exact absurd rfl hy
    | inf b => cases b <;> simp [cmp, lt]
    | finite y =>
      simp only [cmp, lt, decide_eq_true_eq]
      grind

/-! ### Rounding keeps the order -/

/-- Rounding at a position, ties to even. -/
def roundAt (shift n : ℕ) : ℕ :=
  if 2 ^ shift < 2 * (n % 2 ^ shift) ∨
      (2 * (n % 2 ^ shift) = 2 ^ shift ∧ (n >>> shift) % 2 = 1 ∧ shift ≠ 0) then
    (n >>> shift + 1) <<< shift
  else
    n >>> shift <<< shift

theorem roundMagnitude_eq_roundAt (n : ℕ) :
    roundMagnitude n = roundAt (n.log2 + 1 - 53) n := rfl

/-- A number is rounded to one of its two neighbours. -/
theorem roundAt_bounds (shift n : ℕ) :
    n / 2 ^ shift * 2 ^ shift ≤ roundAt shift n ∧
      roundAt shift n ≤ (n / 2 ^ shift + 1) * 2 ^ shift := by
  have hstep : n / 2 ^ shift * 2 ^ shift ≤ (n / 2 ^ shift + 1) * 2 ^ shift :=
    Nat.mul_le_mul_right _ (by omega)
  simp only [roundAt, Nat.shiftRight_eq_div_pow, Nat.shiftLeft_eq]
  split <;> omega

theorem roundAt_mono {shift m n : ℕ} (h : m ≤ n) : roundAt shift m ≤ roundAt shift n := by
  have hquotient : m / 2 ^ shift ≤ n / 2 ^ shift := Nat.div_le_div_right h
  rcases hquotient.lt_or_eq with hlt | heq
  · calc roundAt shift m ≤ (m / 2 ^ shift + 1) * 2 ^ shift := (roundAt_bounds shift m).2
      _ ≤ n / 2 ^ shift * 2 ^ shift := Nat.mul_le_mul_right _ hlt
      _ ≤ roundAt shift n := (roundAt_bounds shift n).1
  · -- Between the same neighbours, what is dropped decides.
    have hm := Nat.div_add_mod m (2 ^ shift)
    have hn := Nat.div_add_mod n (2 ^ shift)
    rw [heq] at hm
    have hdropped : m % 2 ^ shift ≤ n % 2 ^ shift := by omega
    have hstep : n / 2 ^ shift * 2 ^ shift ≤ (n / 2 ^ shift + 1) * 2 ^ shift :=
      Nat.mul_le_mul_right _ (by omega)
    simp only [roundAt, Nat.shiftRight_eq_div_pow, Nat.shiftLeft_eq, heq]
    split <;> split <;> omega

theorem roundMagnitude_mono {m n : ℕ} (h : m ≤ n) : roundMagnitude m ≤ roundMagnitude n := by
  rw [roundMagnitude_eq_roundAt, roundMagnitude_eq_roundAt]
  set s := m.log2 + 1 - 53 with hs
  set t := n.log2 + 1 - 53 with ht
  have hlog : m.log2 ≤ n.log2 := by
    rcases Nat.eq_zero_or_pos m with rfl | hm
    · simp
    · exact (Nat.le_log2 (by omega)).mpr ((Nat.log2_self_le (by omega)).trans h)
  rcases Nat.lt_or_ge s t with hlt | hge
  · -- A power of two separates the two results.
    have hm : m < 2 ^ (53 + s) := by
      refine Nat.lt_log2_self.trans_le (Nat.pow_le_pow_right (by omega) ?_)
      omega
    have hn : 2 ^ (52 + t) ≤ n := by
      have hn' : n.log2 = 52 + t := by omega
      rw [← hn']
      refine Nat.log2_self_le ?_
      rintro rfl
      rw [Nat.log2_zero] at hn'
      omega
    have hkept : m / 2 ^ s + 1 ≤ 2 ^ 53 :=
      Nat.div_lt_of_lt_mul (by rwa [← pow_add, Nat.add_comm])
    have hkept' : 2 ^ 52 ≤ n / 2 ^ t :=
      (Nat.le_div_iff_mul_le (by positivity)).mpr (by rwa [← pow_add])
    calc roundAt s m ≤ (m / 2 ^ s + 1) * 2 ^ s := (roundAt_bounds s m).2
      _ ≤ 2 ^ 53 * 2 ^ s := Nat.mul_le_mul_right _ hkept
      _ = 2 ^ 52 * 2 ^ (s + 1) := by rw [← pow_add, ← pow_add]; congr 1; omega
      _ ≤ 2 ^ 52 * 2 ^ t := Nat.mul_le_mul_left _ (Nat.pow_le_pow_right (by omega) hlt)
      _ ≤ n / 2 ^ t * 2 ^ t := Nat.mul_le_mul_right _ hkept'
      _ ≤ roundAt t n := (roundAt_bounds t n).1
  · have hst : s = t := by omega
    rw [hst]
    exact roundAt_mono h

/-- Conversion to a double keeps the order of integers, but may make them equal. -/
theorem roundToInt_mono {i j : ℤ} (h : i ≤ j) : roundToInt i ≤ roundToInt j := by
  unfold roundToInt
  have hnonneg : ∀ n, (0 : ℤ) ≤ roundMagnitude n := fun n ↦ Int.natCast_nonneg _
  by_cases hi : i < 0
  · rw [if_pos hi]
    by_cases hj : j < 0
    · rw [if_pos hj]
      have := roundMagnitude_mono (m := j.natAbs) (n := i.natAbs) (by omega)
      omega
    · rw [if_neg hj]
      have := hnonneg i.natAbs
      have := hnonneg j.natAbs
      omega
  · have hj : ¬ j < 0 := by omega
    rw [if_neg hi, if_neg hj]
    exact_mod_cast roundMagnitude_mono (m := i.natAbs) (n := j.natAbs) (by omega)

/-- Doubles of integers compare as the rounded integers do. -/
theorem ofInt_lt_ofInt {i j : ℤ} : (ofInt i).lt (ofInt j) = decide (roundToInt i < roundToInt j) := by
  show decide (Dyadic.ofInt (roundToInt i) < Dyadic.ofInt (roundToInt j)) = _
  refine decide_eq_decide.mpr ?_
  rw [← Dyadic.toRat_lt_toRat_iff]
  change ((roundToInt i : Dyadic).toRat < (roundToInt j : Dyadic).toRat) ↔ _
  rw [Dyadic.toRat_intCast, Dyadic.toRat_intCast]
  exact Int.cast_lt

/-! ### Differences, products and quotients -/

def sub (x y : Double) : Double :=
  add x y.neg

/-- Rounding to `53` significant bits, or to a multiple of the least positive double. -/
def roundTiny : Dyadic → Dyadic
  | .zero => .zero
  | .ofOdd n k _ =>
    let shift := max (n.natAbs.log2 + 1 - 53) (k - 1074).toNat
    .ofIntWithPrec (n.sign * roundAt shift n.natAbs) k

/-- The double nearest to a product of two doubles. -/
def ofProduct (x : Dyadic) : Double :=
  let r := roundTiny x
  if overflowBound ≤ r.toRat then inf false
  else if r.toRat ≤ -overflowBound then inf true
  else finite r

def isNegative : Double → Bool
  | nan => false
  | inf negative => negative
  | finite x => decide (x < 0)

def mul (x y : Double) : Double :=
  match x, y with
  | finite x, finite y => ofProduct (x * y)
  | nan, _ => nan
  | _, nan => nan
  | x, y => if x = finite 0 ∨ y = finite 0 then nan else inf (x.isNegative != y.isNegative)

/-- A dyadic number that has the same nearest double as a quotient: what remains after `64` bits
is one bit. -/
def quotient (x y : Dyadic) : Dyadic :=
  let a := x.toRat / y.toRat
  let shift := 64 + 1074 + a.den.log2
  let q := (a.num.natAbs <<< shift) / a.den
  .ofIntWithPrec (a.num.sign * (2 * q + if (a.num.natAbs <<< shift) % a.den = 0 then 0 else 1))
    (shift + 1)

/-- A quotient. One by zero would tell the two zeros apart and is no number here. -/
def div (x y : Double) : Double :=
  match x, y with
  | finite x, finite y => if y = 0 then nan else ofProduct (quotient x y)
  | nan, _ => nan
  | _, nan => nan
  | inf _, inf _ => nan
  | inf negative, y => inf (negative != y.isNegative)
  | finite _, inf _ => finite 0

theorem neg_ofInt {i : ℤ} (h : i.natAbs ≤ 2 ^ 53) : (ofInt i).neg = ofInt (-i) := by
  have hneg : -Dyadic.ofInt i = Dyadic.ofInt (-i) := by
    rw [← Dyadic.toRat_inj, Dyadic.toRat_neg]
    change -((i : Dyadic).toRat) = ((-i : ℤ) : Dyadic).toRat
    rw [Dyadic.toRat_intCast, Dyadic.toRat_intCast, Rat.intCast_neg]
  rw [ofInt_of_natAbs_le h, ofInt_of_natAbs_le (by rwa [Int.natAbs_neg]), neg, hneg]

theorem sub_ofInt {i j : ℤ} (hi : i.natAbs ≤ 2 ^ 53) (hj : j.natAbs ≤ 2 ^ 53)
    (hdiff : (i - j).natAbs ≤ 2 ^ 53) : sub (ofInt i) (ofInt j) = ofInt (i - j) := by
  rw [sub, neg_ofInt hj, add_ofInt hi (by rwa [Int.natAbs_neg]) hdiff, Int.sub_eq_add_neg]

theorem roundTiny_ofInt {i : ℤ} (h : i.natAbs ≤ 2 ^ 53) :
    roundTiny (Dyadic.ofInt i) = Dyadic.ofInt i := by
  unfold Dyadic.ofInt Dyadic.ofIntWithPrec
  split
  · rfl
  · next hi =>
    have hshift : (i >>> i.trailingZeros).natAbs ≤ 2 ^ 53 := by
      rw [Int.shiftRight_eq_div_pow]
      exact (Int.natAbs_ediv_le_natAbs _ _).trans h
    have htiny : ((0 - i.trailingZeros : ℤ) - 1074).toNat = 0 := by omega
    simp only [roundTiny, htiny, Nat.max_zero]
    rw [← roundMagnitude_eq_roundAt, roundMagnitude_of_le hshift, Int.sign_mul_natAbs,
      ← Dyadic.ofOdd_eq_ofIntWithPrec]

theorem ofProduct_ofInt {i : ℤ} (h : i.natAbs ≤ 2 ^ 53) :
    ofProduct (Dyadic.ofInt i) = ofInt i := by
  have hrat : (Dyadic.ofInt i).toRat = (i : ℚ) := Dyadic.toRat_intCast _
  have hbound : (2 : ℤ) ^ 53 < overflowBound := pow_lt_pow_right₀ (by decide) (by decide)
  have hle : ¬ (overflowBound : ℚ) ≤ (i : ℚ) := by
    rw [not_le]
    exact_mod_cast (by omega : i < overflowBound)
  have hge : ¬ (i : ℚ) ≤ -(overflowBound : ℚ) := by
    rw [not_le]
    exact_mod_cast (by omega : -overflowBound < i)
  simp only [ofProduct, roundTiny_ofInt h, hrat, if_neg hle, if_neg hge, ofInt_of_natAbs_le h]

/-- **Products of integers are exact** up to magnitude `2 ^ 53`. -/
theorem mul_ofInt {i j : ℤ} (hi : i.natAbs ≤ 2 ^ 53) (hj : j.natAbs ≤ 2 ^ 53)
    (hprod : (i * j).natAbs ≤ 2 ^ 53) : mul (ofInt i) (ofInt j) = ofInt (i * j) := by
  have hmul : Dyadic.ofInt i * Dyadic.ofInt j = Dyadic.ofInt (i * j) := by
    rw [← Dyadic.toRat_inj, Dyadic.toRat_mul]
    change ((i : Dyadic).toRat * (j : Dyadic).toRat : ℚ) = ((i * j : ℤ) : Dyadic).toRat
    rw [Dyadic.toRat_intCast, Dyadic.toRat_intCast, Dyadic.toRat_intCast, Rat.intCast_mul]
  rw [ofInt_of_natAbs_le hi, ofInt_of_natAbs_le hj]
  show ofProduct (Dyadic.ofInt i * Dyadic.ofInt j) = _
  rw [hmul, ofProduct_ofInt hprod]

theorem zero_mul_ofInt (i : ℤ) : mul (ofInt 0) (ofInt i) = ofInt 0 := by
  show ofProduct (Dyadic.ofInt 0 * Dyadic.ofInt (roundToInt i)) = _
  have hzero : Dyadic.ofInt 0 * Dyadic.ofInt (roundToInt i) = Dyadic.ofInt 0 := by
    rw [← Dyadic.toRat_inj, Dyadic.toRat_mul]
    change ((0 : Dyadic).toRat * _ : ℚ) = (0 : Dyadic).toRat
    simp
  rw [hzero]
  exact ofProduct_ofInt (by decide)

end Double
