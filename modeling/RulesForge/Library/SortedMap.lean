import Mathlib.Data.List.Basic
import Mathlib.Data.String.Basic

/-!
# Maps with string keys as sorted association lists

A `std::map` with string keys is the list of its entries in the order of the keys. Equality
of maps is then equality of lists, and lookup is `List.lookup`.
-/

namespace SortedMap

variable {β : Type*}

/-- Insertion at the key's place, replacing the entry that is there. -/
def insert (k : String) (v : β) : List (String × β) → List (String × β)
  | [] => [(k, v)]
  | (k', v') :: rest =>
    if k < k' then (k, v) :: (k', v') :: rest
    else if k = k' then (k, v) :: rest
    else (k', v') :: insert k v rest

@[simp]
theorem lookup_insert_self (k : String) (v : β) (m : List (String × β)) :
    (insert k v m).lookup k = some v := by
  induction m with
  | nil => simp [insert]
  | cons entry rest ih =>
    obtain ⟨k', v'⟩ := entry
    unfold insert
    split
    · simp
    · split
      · simp
      · next hne => simpa [List.lookup_cons, beq_eq_false_iff_ne.mpr hne] using ih

@[simp]
theorem lookup_insert_ne {k k' : String} (hne : k' ≠ k) (v : β) (m : List (String × β)) :
    (insert k v m).lookup k' = m.lookup k' := by
  have hbeq : (k' == k) = false := beq_eq_false_iff_ne.mpr hne
  induction m with
  | nil => simp [insert, List.lookup_cons, hbeq]
  | cons entry rest ih =>
    obtain ⟨k₁, v₁⟩ := entry
    unfold insert
    split
    · simp [List.lookup_cons, hbeq]
    · split
      · next heq => simp [List.lookup_cons, hbeq, ← heq]
      · simp [List.lookup_cons, ih]

theorem lookup_insert (k k' : String) (v : β) (m : List (String × β)) :
    (insert k v m).lookup k' = if k' = k then some v else m.lookup k' := by
  split
  · next h => rw [h, lookup_insert_self]
  · next h => rw [lookup_insert_ne h]

/-- The entries are in the order of their keys, one for each. -/
def Sorted (m : List (String × β)) : Prop :=
  m.Pairwise fun a b ↦ a.1 < b.1

theorem mem_of_mem_insert {k : String} {v : β} {m : List (String × β)} {entry : String × β}
    (h : entry ∈ insert k v m) : entry = (k, v) ∨ entry ∈ m := by
  induction m with
  | nil => exact .inl (List.mem_singleton.mp h)
  | cons first rest ih =>
    unfold insert at h
    split at h
    · exact List.mem_cons.mp h
    · split at h
      · rcases List.mem_cons.mp h with h | h
        · exact .inl h
        · exact .inr (List.mem_cons_of_mem _ h)
      · rcases List.mem_cons.mp h with h | h
        · exact .inr (h ▸ List.mem_cons_self)
        · exact (ih h).imp_right (List.mem_cons_of_mem _)

/-- Insertion keeps the order. -/
theorem Sorted.insert {m : List (String × β)} (h : Sorted m) (k : String) (v : β) :
    Sorted (insert k v m) := by
  induction m with
  | nil => exact List.pairwise_singleton _ _
  | cons first rest ih =>
    obtain ⟨hfirst, hrest⟩ := List.pairwise_cons.mp h
    unfold SortedMap.insert
    split
    · next hlt =>
      refine List.pairwise_cons.mpr ⟨fun entry hentry ↦ ?_, h⟩
      rcases List.mem_cons.mp hentry with rfl | hentry
      · exact hlt
      · exact hlt.trans (hfirst entry hentry)
    · next hnot =>
      split
      · next heq => exact List.pairwise_cons.mpr ⟨fun entry hentry ↦ heq ▸ hfirst entry hentry, hrest⟩
      · next hne =>
        refine List.pairwise_cons.mpr ⟨fun entry hentry ↦ ?_, ih hrest⟩
        rcases mem_of_mem_insert hentry with rfl | hentry
        · exact lt_of_le_of_ne (not_lt.mp hnot) (Ne.symm hne)
        · exact hfirst entry hentry

/-- Each entry is what lookup finds under its key. -/
theorem Sorted.lookup_eq_some {m : List (String × β)} (h : Sorted m) {k : String} {v : β}
    (hmem : (k, v) ∈ m) : m.lookup k = some v := by
  induction m with
  | nil => exact absurd hmem List.not_mem_nil
  | cons first rest ih =>
    obtain ⟨hfirst, hrest⟩ := List.pairwise_cons.mp h
    rcases List.mem_cons.mp hmem with rfl | hmem
    · simp
    · have hne : k ≠ first.1 := (hfirst _ hmem).ne'
      rw [List.lookup_cons, beq_eq_false_iff_ne.mpr hne]
      exact ih hrest hmem

end SortedMap
