import Mathlib.Data.List.TakeWhile
import Mathlib.Data.Nat.Digits.Defs

/-!
# Texts read from the front

A code is **delimited** by the letters that may follow it when its words can be read off the
front of a text: of what stands at the front, only one word leaves nothing or a stop behind.
Delimited codes are put together in the order in which they are read (`Delimited.append`,
`Delimited.cons`), and a delimited code tells its arguments apart (`Delimited.injective`).

The example of use is a padded decimal number, which is delimited by whatever is no digit
(`delimited_padDigits`).
-/

namespace RulesForge

section Delimited

variable {α β γ : Type} {stop stop' : α → Prop} {code : β → List α} {code' : γ → List α}
  {rest rest' : List α}

/-- Nothing is left, or a text that begins with a stop. -/
def Stopped (stop : α → Prop) (rest : List α) : Prop :=
  ∀ c ∈ rest.head?, stop c

@[simp]
theorem stopped_nil : Stopped stop [] := nofun

@[simp]
theorem stopped_cons {c : α} : Stopped stop (c :: rest) ↔ stop c := by
  simp [Stopped]

theorem Stopped.mono (h : Stopped stop rest) (hstop : ∀ c, stop c → stop' c) :
    Stopped stop' rest :=
  fun c hc ↦ hstop c (h c hc)

/-- The words of a code can be read off the front of a text. -/
def Delimited (stop : α → Prop) (code : β → List α) : Prop :=
  ∀ ⦃x y rest rest'⦄, Stopped stop rest → Stopped stop rest' →
    code x ++ rest = code y ++ rest' → x = y ∧ rest = rest'

theorem Delimited.injective (h : Delimited stop code) : Function.Injective code := by
  intro x y heq
  exact (h stopped_nil stopped_nil (by rw [heq])).1

theorem Delimited.mono (h : Delimited stop code) (hstop : ∀ c, stop' c → stop c) :
    Delimited stop' code :=
  fun _ _ _ _ hrest hrest' heq ↦ h (hrest.mono hstop) (hrest'.mono hstop) heq

/-- At the end of a text it is enough that the words are different. -/
theorem Delimited.of_injective (h : Function.Injective code) :
    Delimited (fun _ ↦ False) code := by
  intro x y rest rest' hrest hrest' heq
  have hnil : ∀ {rest : List α}, Stopped (fun _ ↦ False) rest → rest = [] := by
    intro rest hrest
    cases rest with
    | nil => rfl
    | cons c rest => exact (stopped_cons.mp hrest).elim
  rw [hnil hrest, hnil hrest', List.append_nil, List.append_nil] at heq
  exact ⟨h heq, by rw [hnil hrest, hnil hrest']⟩

theorem Delimited.cons (h : Delimited stop code) (c : α) :
    Delimited stop fun x ↦ c :: code x :=
  fun _ _ _ _ hrest hrest' heq ↦ h hrest hrest' (List.cons_inj_right c |>.mp heq)

/-- One code after another, where the first is stopped by whatever the second begins with. -/
theorem Delimited.append (h : Delimited stop code) (h' : Delimited stop' code')
    (hstop : ∀ y rest, Stopped stop' rest → Stopped stop (code' y ++ rest)) :
    Delimited stop' fun p : β × γ ↦ code p.1 ++ code' p.2 := by
  rintro ⟨x, y⟩ ⟨x', y'⟩ rest rest' hrest hrest' heq
  simp only [List.append_assoc] at heq
  obtain ⟨hx, heq'⟩ := h (hstop y rest hrest) (hstop y' rest' hrest') heq
  obtain ⟨hy, hrest⟩ := h' hrest hrest' heq'
  exact ⟨by rw [hx, hy], hrest⟩

/-- Two codes with a stop between them. -/
theorem Delimited.append_cons (h : Delimited stop code) (h' : Delimited stop' code') {c : α}
    (hc : stop c) : Delimited stop' fun p : β × γ ↦ code p.1 ++ c :: code' p.2 :=
  h.append (h'.cons c) fun _ _ _ ↦ stopped_cons.mpr hc

/-- A word that may be missing, announced by a letter that stops nothing else. -/
theorem Delimited.option (h : Delimited stop code) {c : α} (hc : ¬ stop c) :
    Delimited stop fun x : Option β ↦ x.elim [] fun x ↦ c :: code x := by
  intro x y rest rest' hrest hrest' heq
  have hnot : ∀ {x : β} {rest rest' : List α}, Stopped stop rest → rest ≠ c :: code x ++ rest' := by
    rintro x rest rest' hrest rfl
    exact hc (stopped_cons.mp hrest)
  cases x with
  | none =>
    cases y with
    | none => exact ⟨rfl, heq⟩
    | some y => exact absurd heq (hnot hrest)
  | some x =>
    cases y with
    | none => exact absurd heq.symm (hnot hrest')
    | some y =>
      obtain ⟨hxy, hrest⟩ := h.cons c hrest hrest' heq
      exact ⟨by rw [hxy], hrest⟩

end Delimited

/-! ### Texts after the last separator -/

/-- What stands after the last occurrence of a letter, and what before it. -/
theorem append_cons_inj_of_not_mem {α : Type} {c : α} {front front' back back' : List α}
    (hback : c ∉ back) (hback' : c ∉ back') (h : front ++ c :: back = front' ++ c :: back') :
    front = front' ∧ back = back' := by
  rcases List.append_eq_append_iff.mp h with ⟨l, hfront, hl⟩ | ⟨l, hfront, hl⟩
  · cases l with
    | nil => exact ⟨by simpa using hfront.symm, by simpa using hl⟩
    | cons d l =>
      have hmem : c ∈ back := by
        rw [List.cons_append, List.cons.injEq] at hl
        rw [hl.2]
        simp
      exact absurd hmem hback
  · cases l with
    | nil => exact ⟨by simpa using hfront, by simpa using hl.symm⟩
    | cons d l =>
      have hmem : c ∈ back' := by
        rw [List.cons_append, List.cons.injEq] at hl
        rw [hl.2]
        simp
      exact absurd hmem hback'

/-! ### Padded numbers -/

section Digits

/-- A letter that is no digit. -/
def NoDigit (c : Char) : Prop := c.isDigit = false

/-- The decimal digits of an integer, with its sign. -/
def intDigits : ℤ → List Char
  | .ofNat n => Nat.toDigits 10 n
  | .negSucc n => '-' :: Nat.toDigits 10 (n + 1)

/-- The digits filled up with zeros on the left. -/
def padDigits (width : ℕ) (i : ℤ) : List Char :=
  List.replicate (width - (intDigits i).length) '0' ++ intDigits i

theorem toString_toList_int (i : ℤ) : (toString i).toList = intDigits i := by
  cases i with
  | ofNat n => exact Nat.toList_repr
  | negSucc n =>
    show ("-" ++ Nat.repr (n + 1)).toList = _
    rw [String.toList_append, Nat.toList_repr]
    rfl

theorem isDigit_of_mem_toDigits_ten {n : ℕ} {c : Char} (hc : c ∈ Nat.toDigits 10 n) :
    c.isDigit = true :=
  Nat.isDigit_of_mem_toDigits (by omega) (by omega) hc

theorem toDigits_ten_injective : Function.Injective (Nat.toDigits 10) := by
  intro m n h
  have hm := Nat.ofDigitChars_ten_toDigits (n := m)
  rw [h, Nat.ofDigitChars_ten_toDigits] at hm
  exact hm.symm

theorem minus_not_mem_toDigits (n : ℕ) : '-' ∉ Nat.toDigits 10 n := by
  intro hmem
  have := isDigit_of_mem_toDigits_ten hmem
  revert this
  decide

theorem minus_not_mem_padDigits (width n : ℕ) : '-' ∉ padDigits width (.ofNat n) := by
  intro hmem
  rcases List.mem_append.mp hmem with hmem | hmem
  · have := List.eq_of_mem_replicate hmem
    revert this
    decide
  · exact minus_not_mem_toDigits n hmem

theorem minus_mem_padDigits (width n : ℕ) : '-' ∈ padDigits width (.negSucc n) :=
  List.mem_append_right _ List.mem_cons_self

theorem padDigits_injective (width : ℕ) : Function.Injective (padDigits width) := by
  intro i j h
  cases i with
  | ofNat m =>
    cases j with
    | ofNat n =>
      have hvalue := congrArg (Nat.ofDigitChars 10 · 0) h
      simp only [padDigits, intDigits, Nat.ofDigitChars_append, Nat.ofDigitChars_replicate_zero,
        Nat.mul_zero, Nat.ofDigitChars_ten_toDigits] at hvalue
      rw [hvalue]
    | negSucc n => exact absurd (h ▸ minus_mem_padDigits width n) (minus_not_mem_padDigits width m)
  | negSucc m =>
    cases j with
    | ofNat n => exact absurd (h ▸ minus_mem_padDigits width m) (minus_not_mem_padDigits width n)
    | negSucc n =>
      obtain ⟨-, hdigits⟩ := append_cons_inj_of_not_mem (minus_not_mem_toDigits (m + 1))
        (minus_not_mem_toDigits (n + 1)) h
      have hsucc : m + 1 = n + 1 := toDigits_ten_injective hdigits
      rw [Nat.succ.inj hsucc]

theorem width_le_length_padDigits (width : ℕ) (i : ℤ) : width ≤ (padDigits width i).length := by
  simp only [padDigits, List.length_append, List.length_replicate]
  omega

/-- A sign stands only at the start of what fills the width, so digits are all that goes
beyond it. -/
theorem isDigit_of_mem_drop_padDigits {width : ℕ} (hwidth : 0 < width) {i : ℤ} {c : Char}
    (hc : c ∈ (padDigits width i).drop width) : c.isDigit = true := by
  by_cases hlong : (intDigits i).length ≤ width
  · have hlength : (padDigits width i).length = width := by
      simp only [padDigits, List.length_append, List.length_replicate]
      omega
    rw [List.drop_of_length_le hlength.le] at hc
    exact absurd hc List.not_mem_nil
  · have hpad : padDigits width i = intDigits i := by
      rw [padDigits, Nat.sub_eq_zero_of_le (by omega)]
      rfl
    rw [hpad] at hc
    have htail : c ∈ (intDigits i).drop 1 := List.mem_of_mem_drop (i := width - 1) (by
      rw [List.drop_drop]
      have hsum : 1 + (width - 1) = width := by omega
      rwa [hsum])
    cases i with
    | ofNat n => exact isDigit_of_mem_toDigits_ten (List.mem_of_mem_drop htail)
    | negSucc n => exact isDigit_of_mem_toDigits_ten htail

/-- The number at the front of a text: the width, and the digits that follow. -/
theorem front_padDigits {width : ℕ} (hwidth : 0 < width) (i : ℤ) {rest : List Char}
    (hrest : Stopped NoDigit rest) :
    (padDigits width i ++ rest).take width ++
      ((padDigits width i ++ rest).drop width).takeWhile Char.isDigit = padDigits width i := by
  have hlength := width_le_length_padDigits width i
  have hall : ∀ c ∈ (padDigits width i).drop width, c.isDigit = true :=
    fun c hc ↦ isDigit_of_mem_drop_padDigits hwidth hc
  have hstop : rest.takeWhile Char.isDigit = [] := by
    cases rest with
    | nil => rfl
    | cons c rest =>
      have hc : NoDigit c := stopped_cons.mp hrest
      rw [List.takeWhile_cons_of_neg (Bool.eq_false_iff.mp hc)]
  rw [List.take_append_of_le_length hlength, List.drop_append_of_le_length hlength,
    List.takeWhile_append_of_pos hall, hstop, List.append_nil, List.take_append_drop]

/-- A padded number ends where the digits end. -/
theorem delimited_padDigits {width : ℕ} (hwidth : 0 < width) :
    Delimited NoDigit (padDigits width) := by
  intro i j rest rest' hrest hrest' heq
  have hword : padDigits width i = padDigits width j := by
    rw [← front_padDigits hwidth i hrest, heq, front_padDigits hwidth j hrest']
  refine ⟨padDigits_injective width hword, ?_⟩
  rw [hword] at heq
  exact List.append_cancel_left heq

end Digits

end RulesForge
