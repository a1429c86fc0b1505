import Mathlib.Data.List.Nodup
import Mathlib.Order.Nat

/-!
# Compaction in place

The loop of `std::remove_if` over a vector: a reading position goes through the elements, and
every element that stays is moved down to a writing position. What is left behind a moved
element does not matter. `Compacting` is the invariant of the loop; at its end the elements
before the writing position are those that stay, in their order.
-/

namespace Compaction

variable {α : Type*}

/-- The vector `l` after the elements of `orig` before `it` have been read, and those that stay
moved to the positions before `out`. -/
structure Compacting (keep : α → Bool) (orig l : List α) (it out : ℕ) : Prop where
  length : l.length = orig.length
  out_le : out ≤ it
  done : l.take out = (orig.take it).filter keep
  rest : l.drop it = orig.drop it

namespace Compacting

variable {keep : α → Bool} {orig l : List α} {it out : ℕ}

theorem start (keep : α → Bool) (orig : List α) : Compacting keep orig orig 0 0 :=
  ⟨rfl, le_rfl, by simp, rfl⟩

variable (h : Compacting keep orig l it out)
include h

theorem getElem?_eq : l[it]? = orig[it]? := by
  have hhead := congrArg (fun l ↦ l[0]?) h.rest
  simpa using hhead

theorem drop_succ : l.drop (it + 1) = orig.drop (it + 1) := by
  rw [← List.tail_drop, ← List.tail_drop, h.rest]

theorem take_succ {a : α} (ha : l[it]? = some a) :
    (orig.take (it + 1)).filter keep = (orig.take it).filter keep ++ [a].filter keep := by
  rw [h.getElem?_eq] at ha
  rw [List.take_add_one, ha, Option.toList_some, List.filter_append]

/-- An element that goes. -/
theorem skip {a : α} (ha : l[it]? = some a) (hkeep : keep a = false) :
    Compacting keep orig l (it + 1) out where
  length := h.length
  out_le := h.out_le.trans (Nat.le_succ it)
  done := by
    rw [h.take_succ ha, h.done]
    simp [hkeep]
  rest := h.drop_succ

/-- An element that stays where it is. -/
theorem stay {a : α} (ha : l[it]? = some a) (hkeep : keep a = true) (hout : out = it) :
    Compacting keep orig l (it + 1) (out + 1) where
  length := h.length
  out_le := Nat.succ_le_succ h.out_le
  done := by
    subst hout
    rw [h.take_succ ha, List.take_add_one, ha, h.done]
    simp [hkeep]
  rest := h.drop_succ

/-- An element that is moved down; `b` is what remains of it. -/
theorem move {a : α} (b : α) (ha : l[it]? = some a) (hkeep : keep a = true) (hout : out ≠ it) :
    Compacting keep orig ((l.set out a).set it b) (it + 1) (out + 1) where
  length := by simp [h.length]
  out_le := Nat.succ_le_succ h.out_le
  done := by
    have hlt : out < it := lt_of_le_of_ne h.out_le hout
    have hlen : out < l.length := hlt.trans (List.getElem?_eq_some_iff.mp ha).1
    have htake : ((l.set out a).set it b).take (out + 1) = l.take out ++ [a] := by
      rw [List.take_set_of_le hlt, List.take_add_one, List.getElem?_set_self hlen,
        List.take_set_of_le le_rfl]
      rfl
    rw [htake, h.take_succ ha, h.done]
    simp [hkeep]
  rest := by
    have hlt : out < it := lt_of_le_of_ne h.out_le hout
    rw [List.drop_set_of_lt (Nat.lt_succ_self it), List.drop_set_of_lt (hlt.trans (Nat.lt_succ_self it)),
      h.drop_succ]

/-- The end of the loop. -/
theorem finish (hit : orig.length ≤ it) : l.take out = orig.filter keep := by
  rw [h.done, List.take_of_length_le hit]

end Compacting

end Compaction
