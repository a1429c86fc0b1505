import Mathlib.Data.Set.Basic
import Mathlib.Logic.Relation
import Mathlib.Order.Nat

/-!
# Forests as relations

A relation in which every element has **at most one parent**, and a parent is smaller than
its child. The descendants of two different children of one element are then disjoint.
-/

namespace Forest

open Relation

variable {r : ℕ → ℕ → Prop}

/-- Every element has at most one parent, and parents are smaller. -/
structure IsForest (r : ℕ → ℕ → Prop) : Prop where
  parent_unique : ∀ {a b c}, r a c → r b c → a = b
  parent_lt : ∀ {a c}, r a c → a < c

/-- The elements below `a`, itself included. -/
abbrev Desc (r : ℕ → ℕ → Prop) (a b : ℕ) : Prop := ReflTransGen r a b

/-- The elements strictly below `a`. -/
abbrev StrictDesc (r : ℕ → ℕ → Prop) (a b : ℕ) : Prop := TransGen r a b

namespace IsForest

variable (h : IsForest r)

include h

theorem le_of_desc {a b : ℕ} (hab : Desc r a b) : a ≤ b := by
  induction hab with
  | refl => exact le_rfl
  | tail _ hbc ih => exact ih.trans (h.parent_lt hbc).le

theorem lt_of_strictDesc {a b : ℕ} (hab : StrictDesc r a b) : a < b := by
  obtain ⟨c, hac, hcb⟩ := TransGen.tail'_iff.mp hab
  exact lt_of_le_of_lt (h.le_of_desc hac) (h.parent_lt hcb)

theorem not_strictDesc_self (a : ℕ) : ¬ StrictDesc r a a :=
  fun haa ↦ lt_irrefl a (h.lt_of_strictDesc haa)

/-- Two elements above a common one are comparable. -/
theorem desc_or_desc {a b c : ℕ} (hac : Desc r a c) (hbc : Desc r b c) :
    Desc r a b ∨ Desc r b a := by
  induction hac with
  | refl => exact .inr hbc
  | tail hak hkc ih =>
    rcases ReflTransGen.cases_tail hbc with rfl | ⟨k', hbk', hk'c⟩
    · exact .inl (hak.tail hkc)
    · obtain rfl := h.parent_unique hkc hk'c
      exact ih hbk'

/-- A child of `a` is not below another child of `a`. -/
theorem not_desc_of_siblings {a c c' : ℕ} (hc : r a c) (hc' : r a c') (hne : c ≠ c') :
    ¬ Desc r c c' := by
  intro hcc'
  rcases ReflTransGen.cases_tail hcc' with rfl | ⟨k, hck, hkc'⟩
  · exact hne rfl
  · obtain rfl := h.parent_unique hkc' hc'
    exact absurd (h.le_of_desc hck) (not_le.mpr (h.parent_lt hc))

/-- The descendants of two children of one element are disjoint. -/
theorem disjoint_siblings {a c c' m : ℕ} (hc : r a c) (hc' : r a c') (hne : c ≠ c')
    (hcm : Desc r c m) : ¬ Desc r c' m := by
  intro hc'm
  rcases h.desc_or_desc hcm hc'm with hcc' | hc'c
  · exact h.not_desc_of_siblings hc hc' hne hcc'
  · exact h.not_desc_of_siblings hc' hc hne.symm hc'c

/-- What is below a later child of an element is not below the first. -/
theorem not_desc_first {a c c' m : ℕ} {l : List ℕ} (hnotin : c ∉ l) (hl : ∀ c' ∈ c :: l, r a c')
    (hc' : c' ∈ l) (hm : Desc r c' m) : ¬ Desc r c m :=
  h.disjoint_siblings (hl c' (List.mem_cons_of_mem _ hc')) (hl c List.mem_cons_self)
    (ne_of_mem_of_not_mem hc' hnotin) hm

end IsForest

/-- Strictly below an element is below one of its children. -/
theorem strictDesc_iff {a m : ℕ} : StrictDesc r a m ↔ ∃ c, r a c ∧ Desc r c m :=
  TransGen.head'_iff

/-- Below an element is the element itself, or below one of its children. -/
theorem desc_iff {a m : ℕ} : Desc r a m ↔ m = a ∨ ∃ c, r a c ∧ Desc r c m := by
  rw [← strictDesc_iff]
  exact reflTransGen_iff_eq_or_transGen

/-- What is below the elements of a list leaves a set one element after the other. -/
theorem sdiff_desc_cons (Q : Set ℕ) (c : ℕ) (l : List ℕ) :
    Q \ {m | ∃ c' ∈ c :: l, Desc r c' m} =
      (Q \ {m | Desc r c m}) \ {m | ∃ c' ∈ l, Desc r c' m} := by
  ext m
  simp only [Set.mem_sdiff, Set.mem_ofPred_eq, List.mem_cons]
  grind

end Forest
