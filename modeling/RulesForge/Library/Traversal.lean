import Mathlib.Data.Fintype.EquivFin
import Mathlib.Data.List.Flatten
import Mathlib.Data.Set.Finite.Basic
import Mathlib.Logic.Relation
import Mathlib.Order.WellFounded

/-!
# Depth-first traversals

A traversal of a graph that visits an element and then, one after another, what it links to. It
remembers nothing of what it has visited, so it comes to an end only where no element is reached
from itself (`exists_endsWithin_iff`); then it visits whatever can be reached (`mem_preorder_iff`).
-/

namespace Traversal

open Relation

variable {α : Type} (links : α → List α) {a b : α} {depth depth' : ℕ}

def Link (a b : α) : Prop := b ∈ links a

abbrev Reaches : α → α → Prop := ReflTransGen (Link links)

/-- Every path from an element has less than so many links. -/
def EndsWithin : ℕ → α → Prop
  | 0, _ => False
  | depth + 1, a => ∀ b ∈ links a, EndsWithin depth b

/-- The elements in the order in which they are visited. -/
def preorder : ℕ → α → List α
  | 0, _ => []
  | depth + 1, a => a :: (links a).flatMap (preorder depth)

variable {links}

namespace EndsWithin

theorem succ (h : EndsWithin links depth a) : EndsWithin links (depth + 1) a := by
  induction depth generalizing a with
  | zero => exact h.elim
  | succ depth ih => exact fun b hb ↦ ih (h b hb)

theorem mono (h : EndsWithin links depth a) (hle : depth ≤ depth') :
    EndsWithin links depth' a := by
  induction hle with
  | refl => exact h
  | step _ ih => exact ih.succ

theorem of_reaches (h : EndsWithin links depth a) (hab : Reaches links a b) :
    EndsWithin links depth b := by
  induction hab with
  | refl => exact h
  | tail _ hlink ih =>
    cases depth with
    | zero => exact ih.elim
    | succ depth => exact (ih _ hlink).succ

theorem not_cycle (h : EndsWithin links depth a) : ¬TransGen (Link links) a a := by
  induction depth generalizing a with
  | zero => exact h.elim
  | succ depth ih =>
    intro hcycle
    obtain ⟨b, hlink, hback⟩ := TransGen.head'_iff.mp hcycle
    -- the cycle goes through the next element too, which has less to go
    exact ih (h b hlink) (TransGen.tail' hback hlink)

end EndsWithin

/-- The order does not depend on the depth once it is enough. -/
theorem preorder_eq (h : EndsWithin links depth a) (hle : depth ≤ depth') :
    preorder links depth' a = preorder links depth a := by
  induction depth generalizing a depth' with
  | zero => exact h.elim
  | succ depth ih =>
    obtain ⟨more, rfl⟩ : ∃ more, depth' = more + 1 := ⟨depth' - 1, by omega⟩
    show a :: (links a).flatMap (preorder links more) = a :: (links a).flatMap _
    rw [List.flatMap_congr fun b hb ↦ ih (h b hb) (by omega)]

/-- **A traversal visits what can be reached.** -/
theorem mem_preorder_iff (h : EndsWithin links depth a) :
    b ∈ preorder links depth a ↔ Reaches links a b := by
  constructor
  · intro hb
    clear h
    induction depth generalizing a with
    | zero => exact absurd hb List.not_mem_nil
    | succ depth ih =>
      rcases List.mem_cons.mp hb with rfl | hb
      · exact .refl
      · obtain ⟨c, hlink, hb⟩ := List.mem_flatMap.mp hb
        exact .head hlink (ih hb)
  · intro hab
    induction depth generalizing a with
    | zero => exact h.elim
    | succ depth ih =>
      rcases ReflTransGen.cases_head hab with rfl | ⟨c, hlink, hcb⟩
      · exact List.mem_cons_self
      · exact List.mem_cons_of_mem _ (List.mem_flatMap.mpr ⟨c, hlink, ih (h c hlink) hcb⟩)

theorem exists_endsWithin_all {l : List α} (h : ∀ b ∈ l, ∃ depth, EndsWithin links depth b) :
    ∃ depth, ∀ b ∈ l, EndsWithin links depth b := by
  induction l with
  | nil => exact ⟨0, fun _ hb ↦ absurd hb List.not_mem_nil⟩
  | cons c l ih =>
    obtain ⟨depth, hdepth⟩ := ih fun b hb ↦ h b (List.mem_cons_of_mem _ hb)
    obtain ⟨depth', hdepth'⟩ := h c List.mem_cons_self
    refine ⟨max depth depth', fun b hb ↦ ?_⟩
    rcases List.mem_cons.mp hb with rfl | hb
    · exact hdepth'.mono (le_max_right _ _)
    · exact (hdepth b hb).mono (le_max_left _ _)

/-- **A traversal of finitely many elements comes to an end** exactly when none of them is reached
from itself. -/
theorem exists_endsWithin_iff (hfinite : {b | Reaches links a b}.Finite) :
    (∃ depth, EndsWithin links depth a) ↔
      ∀ b, Reaches links a b → ¬TransGen (Link links) b b := by
  constructor
  · rintro ⟨depth, hdepth⟩ b hab
    exact (hdepth.of_reaches hab).not_cycle
  · intro hacyclic
    have : Finite {b | Reaches links a b} := hfinite
    let below : {b | Reaches links a b} → {b | Reaches links a b} → Prop :=
      fun b c ↦ TransGen (Link links) c.1 b.1
    have : IsTrans _ below := ⟨fun _ _ _ hbc hcd ↦ hcd.trans hbc⟩
    have : Std.Irrefl below := ⟨fun b ↦ hacyclic b.1 b.2⟩
    have hwf : WellFounded below := Finite.wellFounded_of_trans_of_irrefl below
    refine hwf.induction (C := fun b ↦ ∃ depth, EndsWithin links depth b.1) ⟨a, .refl⟩ ?_
    rintro ⟨b, hab⟩ ih
    -- what the element links to ends within a depth
    obtain ⟨depth, hdepth⟩ := exists_endsWithin_all fun c hlink ↦
      ih ⟨c, hab.tail hlink⟩ (.single hlink)
    exact ⟨depth + 1, hdepth⟩

end Traversal
