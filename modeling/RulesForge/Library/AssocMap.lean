import Mathlib.Data.List.Nodup

/-!
# Hash maps as association lists

An unordered map is the list of its entries, in some order; a key has at most one entry when
the list is built from the empty one by `insert` and `erase`. Membership of an entry is what
the lemmas speak about: `mem_insert` and `mem_erase` say what the two operations do to it.
-/

namespace AssocMap

variable {α : Type*} {β : Type*} {m : List (α × β)} {k : α}

/-- Every key has one entry. -/
def Unique (m : List (α × β)) : Prop :=
  (m.map Prod.fst).Nodup

theorem unique_nil : Unique ([] : List (α × β)) := List.nodup_nil

theorem Unique.eq_of_mem (h : Unique m) {v v' : β}
    (hv : (k, v) ∈ m) (hv' : (k, v') ∈ m) : v = v' := by
  have hinj := List.inj_on_of_nodup_map h hv hv' rfl
  exact congrArg Prod.snd hinj

variable [DecidableEq α]

/-- `operator[]` with assignment: the key's entry is replaced or added. -/
def insert (k : α) (v : β) (m : List (α × β)) : List (α × β) :=
  m.filter (·.1 ≠ k) ++ [(k, v)]

/-- `erase`: the entry of the key is taken out. -/
def erase (k : α) (m : List (α × β)) : List (α × β) :=
  m.filter (·.1 ≠ k)

/-- `emplace`: an entry that is there is kept. -/
def emplace (k : α) (v : β) (m : List (α × β)) : List (α × β) :=
  if m.any (·.1 = k) then m else m ++ [(k, v)]

def contains (k : α) (m : List (α × β)) : Bool :=
  m.any (·.1 = k)

@[simp]
theorem mem_insert {k a : α} {v b : β} :
    (a, b) ∈ insert k v m ↔ a ≠ k ∧ (a, b) ∈ m ∨ a = k ∧ b = v := by
  simp [insert, and_comm]

@[simp]
theorem mem_erase {k a : α} {b : β} :
    (a, b) ∈ erase k m ↔ a ≠ k ∧ (a, b) ∈ m := by
  simp [erase, and_comm]

/-- `emplace` of a new key is an assignment. -/
theorem emplace_eq_insert (h : ∀ v, (k, v) ∉ m) (v : β) :
    emplace k v m = insert k v m := by
  have hne : ∀ entry ∈ m, entry.1 ≠ k := by
    rintro ⟨k', v'⟩ hmem rfl
    exact h v' hmem
  have hany : m.any (·.1 = k) = false := by simpa using fun k' v' hmem ↦ hne (k', v') hmem
  have hfilter : m.filter (·.1 ≠ k) = m := List.filter_eq_self.mpr (by simpa using hne)
  simp only [emplace, hany, insert, hfilter]
  rfl

theorem contains_iff :
    contains k m = true ↔ ∃ v, (k, v) ∈ m := by
  simp [contains]

theorem Unique.erase (h : Unique m) (k : α) : Unique (erase k m) :=
  h.sublist (List.Sublist.map _ List.filter_sublist)

/-- An assignment leaves one entry a key. -/
theorem Unique.insert (h : Unique m) (k : α) (v : β) :
    Unique (insert k v m) := by
  simp only [Unique, AssocMap.insert, List.map_append, List.map_cons, List.map_nil]
  refine List.Nodup.append (h.erase k) (List.nodup_singleton k) ?_
  simp [List.disjoint_singleton]

/-- In a map with one entry a key, lookup finds exactly the entry. -/
theorem Unique.lookup_eq_some_iff (h : Unique m) {v : β} :
    m.lookup k = some v ↔ (k, v) ∈ m := by
  induction m with
  | nil => simp
  | cons entry m ih =>
    obtain ⟨k', v'⟩ := entry
    simp only [Unique, List.map_cons, List.nodup_cons] at h
    by_cases hk : k = k'
    · subst hk
      have hnotin : (k, v) ∉ m := fun hmem ↦ h.1 (List.mem_map_of_mem (f := Prod.fst) hmem)
      simp [hnotin, eq_comm]
    · simp [List.lookup_cons, beq_eq_false_iff_ne.mpr hk, ih h.2, hk]

theorem lookup_erase_self (k : α) (m : List (α × β)) : (erase k m).lookup k = none := by
  simp [erase, List.lookup_eq_none_iff]
  grind

theorem lookup_erase_ne {k k' : α} (hne : k' ≠ k) (m : List (α × β)) :
    (erase k m).lookup k' = m.lookup k' := by
  induction m with
  | nil => rfl
  | cons entry m ih =>
    obtain ⟨a, b⟩ := entry
    unfold erase at ih ⊢
    by_cases ha : a = k
    · subst ha
      rw [List.filter_cons_of_neg (by simp), ih, List.lookup_cons,
        beq_eq_false_iff_ne.mpr hne]
    · rw [List.filter_cons_of_pos (by simpa using ha), List.lookup_cons, List.lookup_cons, ih]

/-- An assignment is read back, and other keys are untouched. -/
@[simp]
theorem lookup_insert_self (k : α) (v : β) (m : List (α × β)) :
    (insert k v m).lookup k = some v := by
  change (erase k m ++ [(k, v)]).lookup k = some v
  simp [List.lookup_append, lookup_erase_self]

theorem lookup_insert_ne {k k' : α} (hne : k' ≠ k) (v : β) (m : List (α × β)) :
    (insert k v m).lookup k' = m.lookup k' := by
  change (erase k m ++ [(k, v)]).lookup k' = m.lookup k'
  simp [List.lookup_append, lookup_erase_ne hne, List.lookup_cons, beq_eq_false_iff_ne.mpr hne]

theorem mem_of_lookup {v : β} (h : m.lookup k = some v) :
    (k, v) ∈ m := by
  obtain ⟨l, l', rfl, -⟩ := List.lookup_eq_some_iff.mp h
  exact List.mem_append_right _ List.mem_cons_self

theorem lookup_eq_none_iff :
    m.lookup k = none ↔ ∀ v, (k, v) ∉ m := by
  simp [List.lookup_eq_none_iff]
  grind

/-- Erasing a key that is not there does nothing. -/
theorem erase_of_lookup_eq_none (h : m.lookup k = none) :
    erase k m = m := by
  refine List.filter_eq_self.mpr ?_
  rintro ⟨k', v⟩ hmem
  refine decide_eq_true ?_
  rintro rfl
  exact lookup_eq_none_iff.mp h v hmem

/-- A map is one of its entries and the map without the entry's key, in another order. -/
theorem perm_cons_erase (h : Unique m) {v : β}
    (hv : m.lookup k = some v) : m.Perm ((k, v) :: erase k m) := by
  obtain ⟨l, l', rfl, -⟩ := List.lookup_eq_some_iff.mp hv
  have hnodup := (List.perm_middle.map Prod.fst).nodup_iff.mp h
  have hne : ∀ entry ∈ l ++ l', decide (entry.1 ≠ k) = true := by
    intro entry hmem
    refine decide_eq_true ?_
    rintro rfl
    have hkey : entry.1 ∈ (l ++ l').map Prod.fst := List.mem_map_of_mem hmem
    exact (List.nodup_cons.mp hnodup).1 hkey
  have herase : erase k (l ++ (k, v) :: l') = l ++ l' := by
    rw [erase, List.filter_append, List.filter_cons_of_neg (by simp), ← List.filter_append]
    exact List.filter_eq_self.mpr hne
  rw [herase]
  exact List.perm_middle

/-- An assignment, as a change of the map up to order. -/
theorem insert_perm (k : α) (v : β) (m : List (α × β)) :
    (insert k v m).Perm ((k, v) :: erase k m) :=
  List.perm_append_singleton (k, v) (erase k m)

end AssocMap
