import Mathlib.Data.List.Induction

/-!
# Histories

A history is the list of what has happened, oldest first. What is said of one entry with what came
before and after it follows the history as it grows at the end (`exists_split_concat`). The common
case is an entry that **stands**: it sets something that no later entry clears. What every entry
has to keep to, given those before it, is `Keeps`.
-/

namespace History

variable {α : Type*}

/-- An entry of a longer history is its last entry or one of the shorter history. -/
theorem exists_split_concat {P : List α → α → List α → Prop} {l : List α} {x : α} :
    (∃ before a after, l ++ [x] = before ++ a :: after ∧ P before a after) ↔
      P l x [] ∨ ∃ before a after, l = before ++ a :: after ∧ P before a (after ++ [x]) := by
  constructor
  · rintro ⟨before, a, after, heq, hP⟩
    rcases List.eq_nil_or_concat after with rfl | ⟨after, y, rfl⟩
    · obtain ⟨rfl, hx⟩ := List.append_inj' heq rfl
      cases hx
      exact .inl hP
    · rw [List.concat_eq_append] at heq hP
      rw [← List.cons_append, ← List.append_assoc] at heq
      obtain ⟨hl, hx⟩ := List.append_inj' heq rfl
      cases hx
      exact .inr ⟨before, a, after, hl, hP⟩
  · rintro (hP | ⟨before, a, after, rfl, hP⟩)
    · exact ⟨l, x, [], rfl, hP⟩
    · exact ⟨before, a, after ++ [x], by rw [List.append_assoc, List.cons_append], hP⟩

/-- Some entry sets what no later entry clears. -/
def Stands (sets clears : α → Prop) (l : List α) : Prop :=
  ∃ before a after, l = before ++ a :: after ∧ sets a ∧ ∀ b ∈ after, ¬clears b

variable {sets clears : α → Prop} {l : List α}

theorem not_stands_nil : ¬Stands sets clears [] := by
  rintro ⟨before, a, after, heq, -, -⟩
  exact List.append_ne_nil_of_right_ne_nil before (List.cons_ne_nil a after) heq.symm

theorem stands_concat {x : α} :
    Stands sets clears (l ++ [x]) ↔ sets x ∨ Stands sets clears l ∧ ¬clears x := by
  unfold Stands
  rw [exists_split_concat (P := fun _ a after ↦ sets a ∧ ∀ b ∈ after, ¬clears b)]
  refine or_congr (by simp) ⟨?_, ?_⟩
  · rintro ⟨before, a, after, hl, ha, hafter⟩
    exact ⟨⟨before, a, after, hl, ha, fun b hb ↦ hafter b (List.mem_append_left _ hb)⟩,
      hafter x (by simp)⟩
  · rintro ⟨⟨before, a, after, hl, ha, hafter⟩, hx⟩
    refine ⟨before, a, after, hl, ha, fun b hb ↦ ?_⟩
    rcases List.mem_append.mp hb with hb | hb
    · exact hafter b hb
    · rwa [List.mem_singleton.mp hb]

/-- Entries that set nothing leave standing what none of them clears. -/
theorem stands_append {more : List α} (hmore : ∀ b ∈ more, ¬sets b) :
    Stands sets clears (l ++ more) ↔ Stands sets clears l ∧ ∀ b ∈ more, ¬clears b := by
  induction more using List.reverseRecOn with
  | nil => simp
  | append_singleton more x ih =>
    have hinit : ∀ b ∈ more, ¬sets b := fun b hb ↦ hmore b (List.mem_append_left _ hb)
    have hx : ¬sets x := hmore x (by simp)
    rw [← List.append_assoc, stands_concat, ih hinit, or_iff_right hx, and_assoc]
    refine and_congr_right fun _ ↦ ?_
    simp [or_imp, forall_and]

/-- What stands is left standing by entries that do not clear it. -/
theorem Stands.append (h : Stands sets clears l) {more : List α} (hmore : ∀ b ∈ more, ¬clears b) :
    Stands sets clears (l ++ more) := by
  obtain ⟨before, a, after, rfl, ha, hafter⟩ := h
  refine ⟨before, a, after ++ more, by rw [List.append_assoc, List.cons_append], ha, fun b hb ↦ ?_⟩
  rcases List.mem_append.mp hb with hb | hb
  · exact hafter b hb
  · exact hmore b hb

/-- Every entry keeps to a rule, given the entries before it. -/
def Keeps (rule : List α → α → Prop) (l : List α) : Prop :=
  ∀ before a after, l = before ++ a :: after → rule before a

variable {rule : List α → α → Prop}

theorem keeps_nil : Keeps rule [] :=
  fun before a after heq ↦
    absurd heq (List.append_ne_nil_of_right_ne_nil before (List.cons_ne_nil a after)).symm

theorem Keeps.append_left {more : List α} (h : Keeps rule (l ++ more)) : Keeps rule l :=
  fun before a after heq ↦
    h before a (after ++ more) (by rw [heq, List.append_assoc, List.cons_append])

/-- An entry keeps to the rule, given those before it. -/
theorem Keeps.exists_of_mem {more : List α} (h : Keeps rule (l ++ more)) {x : α} (hx : x ∈ more) :
    ∃ before after, more = before ++ x :: after ∧ rule (l ++ before) x := by
  obtain ⟨before, after, rfl⟩ := List.append_of_mem hx
  exact ⟨before, after, rfl, h (l ++ before) x after (by rw [List.append_assoc])⟩

theorem keeps_concat {x : α} : Keeps rule (l ++ [x]) ↔ Keeps rule l ∧ rule l x := by
  constructor
  · exact fun h ↦ ⟨h.append_left, h l x [] rfl⟩
  · rintro ⟨hinit, hlast⟩ before a after heq
    rcases List.eq_nil_or_concat after with rfl | ⟨after, y, rfl⟩
    · obtain ⟨rfl, hx⟩ := List.append_inj' heq rfl
      cases hx
      exact hlast
    · rw [List.concat_eq_append, ← List.cons_append, ← List.append_assoc] at heq
      exact hinit before a after (List.append_inj' heq rfl).1

/-- Entries that keep to the rule whatever has happened before. -/
theorem Keeps.append (h : Keeps rule l) {more : List α}
    (hmore : ∀ x ∈ more, ∀ before, rule before x) : Keeps rule (l ++ more) := by
  induction more using List.reverseRecOn with
  | nil => simpa using h
  | append_singleton more x ih =>
    rw [← List.append_assoc]
    refine keeps_concat.mpr ⟨ih fun y hy ↦ hmore y (List.mem_append_left _ hy), ?_⟩
    exact hmore x (by simp) _

/-- What keeps to a rule keeps to a weaker one. -/
theorem Keeps.mono (h : Keeps rule l) {rule' : List α → α → Prop}
    (hrule : ∀ past x, rule past x → rule' past x) : Keeps rule' l :=
  fun before a after heq ↦ hrule before a (h before a after heq)

/-- The entries may be checked one by one. -/
theorem keeps_iff_getElem :
    Keeps rule l ↔ ∀ (k : ℕ) (hk : k < l.length), rule (l.take k) l[k] := by
  constructor
  · intro h k hk
    refine h (l.take k) l[k] (l.drop (k + 1)) ?_
    rw [← List.drop_eq_getElem_cons hk, List.take_append_drop]
  · rintro h before a after rfl
    have hk : before.length < (before ++ a :: after).length := by simp
    simpa using h before.length hk

instance [∀ past x, Decidable (rule past x)] : Decidable (Keeps rule l) :=
  decidable_of_iff (∀ k : Fin l.length, rule (l.take k) l[k]) (by
    rw [keeps_iff_getElem]
    exact ⟨fun h k hk ↦ h ⟨k, hk⟩, fun h k ↦ h k k.isLt⟩)

end History
