import Mathlib.Order.Basic
import Mathlib.Data.Ordering.Basic

/-!
# Three-way comparisons

A strict order is a **strict weak order** when what it does not tell apart is an equivalence. It is
one when it is read off a comparison that is turned around with its arguments and makes **no
cycle**: going around three elements, no step is upward unless one is downward.

Comparisons without cycles are put together lexicographically (`NoCycle.andThen`), and need be
known only where what comes first does not decide.
-/

namespace RulesForge

/-! ### Cycles -/

/-- The comparisons around a triangle: if none is downward, none is upward either. -/
def NoCycle (o₁ o₂ o₃ : Ordering) : Prop :=
  o₁.isLE = true → o₂.isLE = true → o₃.isLE = true → o₁ = .eq ∧ o₂ = .eq ∧ o₃ = .eq

section NoCycle

variable {o₁ o₂ o₃ p₁ p₂ p₃ : Ordering} {α : Type} {cmp : α → α → Ordering}

theorem noCycle_eq : NoCycle .eq .eq .eq := fun _ _ _ ↦ ⟨rfl, rfl, rfl⟩

/-- One comparison after another. -/
theorem NoCycle.andThen (h : NoCycle o₁ o₂ o₃)
    (h' : o₁ = .eq → o₂ = .eq → o₃ = .eq → NoCycle p₁ p₂ p₃) :
    NoCycle (o₁.then p₁) (o₂.then p₂) (o₃.then p₃) := by
  intro h₁ h₂ h₃
  obtain ⟨rfl, rfl, rfl⟩ := h (Ordering.isLE_then_iff_and.mp h₁).1
    (Ordering.isLE_then_iff_and.mp h₂).1 (Ordering.isLE_then_iff_and.mp h₃).1
  -- the second comparison decides
  exact h' rfl rfl rfl h₁ h₂ h₃

theorem noCycle_of_transCmp [Std.TransCmp cmp] (a b c : α) :
    NoCycle (cmp a b) (cmp b c) (cmp c a) := by
  have heq : ∀ {x y z : α}, (cmp x y).isLE = true → (cmp y z).isLE = true →
      (cmp z x).isLE = true → cmp z x = .eq := by
    intro x y z hxy hyz hzx
    have hxz := Std.TransCmp.isLE_trans hxy hyz
    rw [@Std.OrientedCmp.eq_swap _ cmp _ x z] at hxz
    cases hcmp : cmp z x with
    | eq => rfl
    | lt =>
      rw [hcmp] at hxz
      contradiction
    | gt =>
      rw [hcmp] at hzx
      contradiction
  intro hab hbc hca
  exact ⟨heq hbc hca hab, heq hca hab hbc, heq hab hbc hca⟩

/-- A comparison of what elements are mapped to. -/
theorem transCmp_map {β : Type} (cmp : β → β → Ordering) [Std.TransCmp cmp] (f : α → β) :
    Std.TransCmp fun a b ↦ cmp (f a) (f b) where
  eq_swap := Std.OrientedCmp.eq_swap
  isLE_trans := Std.TransCmp.isLE_trans

end NoCycle

/-! ### Strict weak orders -/

/-- Neither is less than the other. -/
def Incomparable {α : Type} (less : α → α → Bool) (a b : α) : Prop :=
  less a b = false ∧ less b a = false

/-- A strict order whose incomparability is transitive. -/
structure IsStrictWeak {α : Type} (less : α → α → Bool) : Prop where
  irrefl : ∀ a, less a a = false
  trans : ∀ a b c, less a b = true → less b c = true → less a c = true
  incomparable_trans : ∀ a b c, Incomparable less a b → Incomparable less b c →
    Incomparable less a c

/-- A comparison that is turned around with its arguments. -/
structure IsThreeWay {α : Type} (cmp : α → α → Ordering) : Prop where
  swap : ∀ a b, (cmp a b).swap = cmp b a
  noCycle : ∀ a b c, NoCycle (cmp a b) (cmp b c) (cmp c a)

namespace IsThreeWay

variable {α : Type} {cmp : α → α → Ordering} {less : α → α → Bool}

theorem incomparable_iff (h : IsThreeWay cmp) (hless : ∀ a b, less a b = (cmp a b == .lt))
    {a b : α} : Incomparable less a b ↔ cmp a b = .eq := by
  rw [Incomparable, hless, hless, ← h.swap a b]
  cases cmp a b <;> decide

/-- **What a three-way comparison puts below** is a strict weak order. -/
theorem isStrictWeak (h : IsThreeWay cmp) (hless : ∀ a b, less a b = (cmp a b == .lt)) :
    IsStrictWeak less where
  irrefl a := by
    have hswap := h.swap a a
    rw [hless]
    cases hcmp : cmp a a with
    | eq => rfl
    | lt =>
      rw [hcmp] at hswap
      contradiction
    | gt => rfl
  trans a b c hab hbc := by
    rw [hless, beq_iff_eq] at hab hbc ⊢
    cases hac : cmp a c with
    | lt => rfl
    | _ =>
      -- going back from the third would close a cycle
      have hca := h.swap a c
      rw [hac] at hca
      have hcycle := h.noCycle a b c (by rw [hab]; rfl) (by rw [hbc]; rfl) (by rw [← hca]; rfl)
      rw [hab] at hcycle
      cases hcycle.1
  incomparable_trans a b c hab hbc := by
    rw [h.incomparable_iff hless] at hab hbc ⊢
    cases hac : cmp a c with
    | eq => rfl
    | gt =>
      have hca := h.swap a c
      rw [hac] at hca
      have hcycle := h.noCycle a b c (by rw [hab]; rfl) (by rw [hbc]; rfl) (by rw [← hca]; rfl)
      rw [← hca] at hcycle
      cases hcycle.2.2
    | lt =>
      have hba := h.swap a b
      have hcb := h.swap b c
      rw [hab] at hba
      rw [hbc] at hcb
      have hcycle := h.noCycle a c b (by rw [hac]; rfl) (by rw [← hcb]; rfl) (by rw [← hba]; rfl)
      rw [hac] at hcycle
      cases hcycle.1

end IsThreeWay

end RulesForge
