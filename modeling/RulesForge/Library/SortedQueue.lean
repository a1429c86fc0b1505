import Mathlib.Data.Int.Order.Basic
import Mathlib.Order.Lattice
import Mathlib.Data.List.InsertIdx
import Mathlib.Data.List.Perm.Basic
import Mathlib.Data.List.TakeWhile

/-!
# Sorted queues

A list kept in the order of a key: an element is inserted at the **upper bound** of its key, which
a halving search finds, and elements leave at the front.

* `upperBound` is the halving search. On a list cut in two by a test it is the place of the cut
  (`upperBound_append`); on any list it is a place of the list (`upperBound_le`).
* Inserting at the upper bound keeps a list sorted (`pairwise_insertIdx_upperBound`).
* Where a test never comes to hold again after it has failed, what is left after dropping from
  the front is what the test does not hold of (`dropWhile_eq_filter_not`).
-/

namespace SortedQueue

variable {α β : Type*}

/-! ### The upper bound -/

/-- The loop of a halving search: of the `len` elements from `first` on it is still open whether
they are `above`. The fuel is the number of rounds. -/
def upperBoundLoop (above : α → Bool) (l : List α) : ℕ → ℕ → ℕ → ℕ
  | 0, first, _ => first
  | fuel + 1, first, len =>
    if len = 0 then first
    else
      match l[first + len / 2]? with
      | none => first
      | some a =>
        if above a then upperBoundLoop above l fuel first (len / 2)
        else upperBoundLoop above l fuel (first + len / 2 + 1) (len - len / 2 - 1)

/-- The first place whose element is above, in a list where those come last. -/
def upperBound (above : α → Bool) (l : List α) : ℕ :=
  upperBoundLoop above l l.length 0 l.length

variable {above : α → Bool} {l : List α}

theorem upperBoundLoop_le {fuel first len : ℕ} (h : first + len ≤ l.length) :
    upperBoundLoop above l fuel first len ≤ l.length := by
  induction fuel generalizing first len with
  | zero =>
    show first ≤ l.length
    omega
  | succ fuel ih =>
    unfold upperBoundLoop
    split
    · omega
    · split
      · omega
      · split
        · exact ih (by omega)
        · exact ih (by omega)

theorem upperBound_le : upperBound above l ≤ l.length :=
  upperBoundLoop_le (by omega)

/-- The cut between what is below and what is above stays between `first` and `first + len`. -/
theorem upperBoundLoop_append {below upper : List α} (hbelow : ∀ a ∈ below, above a = false)
    (hupper : ∀ a ∈ upper, above a = true) {fuel first len : ℕ} (hfuel : len ≤ fuel)
    (hfirst : first ≤ below.length) (hcut : below.length ≤ first + len)
    (hlast : first + len ≤ (below ++ upper).length) :
    upperBoundLoop above (below ++ upper) fuel first len = below.length := by
  induction fuel generalizing first len with
  | zero =>
    show first = below.length
    omega
  | succ fuel ih =>
    unfold upperBoundLoop
    split
    · omega
    · next hlen =>
      have hmid : first + len / 2 < (below ++ upper).length := by omega
      rw [List.getElem?_eq_getElem hmid]
      by_cases hleft : first + len / 2 < below.length
      · -- the middle is below the cut, so the search goes on behind it
        have habove : above (below ++ upper)[first + len / 2] = false := by
          rw [List.getElem_append_left hleft]
          exact hbelow _ (List.getElem_mem hleft)
        simp only [habove, Bool.false_eq_true, if_false]
        exact ih (by omega) (by omega) (by omega) (by omega)
      · have habove : above (below ++ upper)[first + len / 2] = true := by
          rw [List.getElem_append_right (by omega)]
          exact hupper _ (List.getElem_mem _)
        simp only [habove, if_true]
        exact ih (by omega) (by omega) (by omega) (by omega)

theorem upperBound_append {below upper : List α} (hbelow : ∀ a ∈ below, above a = false)
    (hupper : ∀ a ∈ upper, above a = true) :
    upperBound above (below ++ upper) = below.length :=
  upperBoundLoop_append hbelow hupper le_rfl (Nat.zero_le _)
    (by rw [List.length_append]; omega) (by omega)

/-! ### Insertion -/

section Insertion

variable [LinearOrder β] {key : α → β} {a : α}

/-- A sorted list is cut in two by every bound on the key. -/
theorem exists_cut (h : l.Pairwise fun b c ↦ key b ≤ key c) (k : β) :
    ∃ below upper, l = below ++ upper ∧ (∀ b ∈ below, key b ≤ k) ∧ ∀ b ∈ upper, k < key b := by
  induction l with
  | nil => exact ⟨[], [], rfl, nofun, nofun⟩
  | cons b l ih =>
    obtain ⟨hb, hl⟩ := List.pairwise_cons.mp h
    by_cases hk : key b ≤ k
    · obtain ⟨below, upper, rfl, hbelow, hupper⟩ := ih hl
      exact ⟨b :: below, upper, rfl, List.forall_mem_cons.mpr ⟨hk, hbelow⟩, hupper⟩
    · have hlt : k < key b := lt_of_not_ge hk
      exact ⟨[], b :: l, rfl, nofun,
        List.forall_mem_cons.mpr ⟨hlt, fun c hc ↦ lt_of_lt_of_le hlt (hb c hc)⟩⟩

theorem insertIdx_length_append (below upper : List α) (a : α) :
    (below ++ upper).insertIdx below.length a = below ++ a :: upper := by
  induction below with
  | nil => rfl
  | cons b below ih =>
    rw [List.cons_append, List.length_cons, List.insertIdx_succ_cons, ih, List.cons_append]

/-- An element inserted at the upper bound of its key keeps a list sorted, equal keys in the
order they came. -/
theorem pairwise_insertIdx_upperBound (h : l.Pairwise fun b c ↦ key b ≤ key c) :
    (l.insertIdx (upperBound (fun b ↦ decide (key a < key b)) l) a).Pairwise
      fun b c ↦ key b ≤ key c := by
  obtain ⟨below, upper, rfl, hbelow, hupper⟩ := exists_cut h (key a)
  have hplace : upperBound (fun b ↦ decide (key a < key b)) (below ++ upper) = below.length :=
    upperBound_append (fun b hb ↦ decide_eq_false (not_lt.mpr (hbelow b hb)))
      (fun b hb ↦ decide_eq_true (hupper b hb))
  obtain ⟨hleft, hright, hacross⟩ := List.pairwise_append.mp h
  rw [hplace, insertIdx_length_append]
  refine List.pairwise_append.mpr ⟨hleft, List.pairwise_cons.mpr ⟨?_, hright⟩, ?_⟩
  · exact fun b hb ↦ (hupper b hb).le
  · exact fun b hb ↦ List.forall_mem_cons.mpr ⟨hbelow b hb, hacross b hb⟩

end Insertion

theorem insertIdx_upperBound_perm (a : α) :
    (l.insertIdx (upperBound above l) a).Perm (a :: l) :=
  List.perm_insertIdx a l upperBound_le

/-! ### Leaving at the front -/

/-- Dropping from the front stops at the first element a test fails of: where it fails of all
later ones too, nothing it holds of is left. -/
theorem dropWhile_eq_filter_not {p : α → Bool} (h : l.Pairwise fun a b ↦ p b → p a) :
    l.dropWhile p = l.filter fun a ↦ !p a := by
  induction l with
  | nil => rfl
  | cons a l ih =>
    obtain ⟨ha, hl⟩ := List.pairwise_cons.mp h
    by_cases hp : p a
    · rw [List.dropWhile_cons_of_pos hp, List.filter_cons_of_neg (by simp [hp]), ih hl]
    · rw [List.dropWhile_cons_of_neg hp, eq_comm, List.filter_eq_self]
      refine List.forall_mem_cons.mpr ⟨by simp [hp], fun b hb ↦ ?_⟩
      simpa using fun hpb ↦ hp (ha b hb hpb)

end SortedQueue
