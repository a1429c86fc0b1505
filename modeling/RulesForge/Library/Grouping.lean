import Mathlib.Data.List.Induction
import Mathlib.Data.List.Nodup
import Mathlib.Data.List.Perm.Basic

/-!
# Grouping by key

The elements of a list of entries, gathered by their keys: equal keys share a group, and a group
keeps the key that came first. Equality is the test that a hash table is given. Where it agrees
with the equality of canonical keys (`Groups`), the elements are those of the entries, each in the
one group of its key.
-/

namespace Grouping

variable {κ γ α : Type}

/-- An element joins the group of its key, or starts one. -/
def insert (same : κ → κ → Bool) (groups : List (κ × List α)) (entry : κ × α) :
    List (κ × List α) :=
  if groups.any (same ·.1 entry.1) then
    groups.map fun group ↦
      if same group.1 entry.1 then (group.1, group.2 ++ [entry.2]) else group
  else groups ++ [(entry.1, [entry.2])]

/-- The entries by their keys. -/
def group (same : κ → κ → Bool) (entries : List (κ × α)) : List (κ × List α) :=
  entries.foldl (insert same) []

/-- Every element is in the group of its canonical key, and groups have different ones. -/
structure Groups (canon : κ → γ) (entries : List (κ × α)) (groups : List (κ × List α)) : Prop where
  perm : (groups.flatMap Prod.snd).Perm (entries.map Prod.snd)
  key : ∀ g ∈ groups, ∃ a, (g.1, a) ∈ entries
  mem : ∀ g ∈ groups, ∀ a ∈ g.2, ∃ k, (k, a) ∈ entries ∧ canon k = canon g.1
  distinct : (groups.map fun g ↦ canon g.1).Nodup

variable {same : κ → κ → Bool} {canon : κ → γ} {entries : List (κ × α)}
  {groups : List (κ × List α)} {key : κ} {a : α}

/-- An element joins the one group of its key. -/
theorem perm_join (hdistinct : (groups.map fun g ↦ canon g.1).Nodup)
    (hsame : ∀ g ∈ groups, (same g.1 key = true ↔ canon g.1 = canon key))
    (hany : ∃ g ∈ groups, same g.1 key = true) :
    ((groups.map fun g ↦ if same g.1 key then (g.1, g.2 ++ [a]) else g).flatMap Prod.snd).Perm
      (groups.flatMap Prod.snd ++ [a]) := by
  induction groups with
  | nil =>
    obtain ⟨g, hg, -⟩ := hany
    exact absurd hg List.not_mem_nil
  | cons g groups ih =>
    obtain ⟨hnotin, hdistinct⟩ := List.nodup_cons.mp hdistinct
    have hrest : ∀ g ∈ groups, (same g.1 key = true ↔ canon g.1 = canon key) :=
      fun g hg ↦ hsame g (List.mem_cons_of_mem _ hg)
    cases hg : same g.1 key with
    | true =>
      -- the other groups have other keys
      have hothers : groups.map (fun g ↦ if same g.1 key then (g.1, g.2 ++ [a]) else g) = groups := by
        refine (List.map_congr_left fun g' hg' ↦ if_neg fun hg'' ↦ hnotin ?_).trans (List.map_id _)
        have heq := ((hrest g' hg').mp hg'').trans ((hsame g List.mem_cons_self).mp hg).symm
        exact List.mem_map.mpr ⟨g', hg', heq⟩
      simp only [List.map_cons, hg, if_true, List.flatMap_cons, hothers, List.append_assoc]
      exact List.perm_append_comm.append_left g.2
    | false =>
      obtain ⟨g', hg', hkey⟩ := hany
      have hin : g' ∈ groups := by
        rcases List.mem_cons.mp hg' with rfl | hg'
        · exact absurd (hg.symm.trans hkey) Bool.false_ne_true
        · exact hg'
      simp only [List.map_cons, hg, Bool.false_eq_true, if_false, List.flatMap_cons,
        List.append_assoc]
      exact (ih hdistinct hrest ⟨g', hin, hkey⟩).append_left g.2

/-- One more entry. -/
theorem Groups.insert (h : Groups canon entries groups)
    (hsame : ∀ g ∈ groups, (same g.1 key = true ↔ canon g.1 = canon key)) :
    Groups canon (entries ++ [(key, a)]) (insert same groups (key, a)) := by
  have hmem : ∀ {e}, e ∈ entries → e ∈ entries ++ [(key, a)] :=
    fun he ↦ List.mem_append_left _ he
  have hlast : (key, a) ∈ entries ++ [(key, a)] := List.mem_append_right _ (List.mem_singleton_self _)
  unfold Grouping.insert
  split
  · next hany =>
    obtain ⟨g, hg, hkey⟩ := List.any_eq_true.mp hany
    refine ⟨?_, ?_, ?_, ?_⟩
    · rw [List.map_append]
      exact (perm_join h.distinct hsame ⟨g, hg, hkey⟩).trans (h.perm.append_right _)
    · intro g' hg'
      obtain ⟨g, hg, rfl⟩ := List.mem_map.mp hg'
      obtain ⟨b, hb⟩ := h.key g hg
      refine ⟨b, hmem ?_⟩
      split <;> exact hb
    · intro g' hg' b hb
      obtain ⟨g, hg, rfl⟩ := List.mem_map.mp hg'
      split at hb
      · next hkey =>
        rw [if_pos hkey]
        rcases List.mem_append.mp hb with hb | hb
        · obtain ⟨k, hk, heq⟩ := h.mem g hg b hb
          exact ⟨k, hmem hk, heq⟩
        · rw [List.mem_singleton.mp hb]
          exact ⟨key, hlast, ((hsame g hg).mp hkey).symm⟩
      · next hkey =>
        rw [if_neg hkey]
        obtain ⟨k, hk, heq⟩ := h.mem g hg b hb
        exact ⟨k, hmem hk, heq⟩
    · rw [List.map_map]
      refine (List.map_congr_left fun g _ ↦ ?_).symm ▸ h.distinct
      show canon (if same g.1 key = true then (g.1, g.2 ++ [a]) else g).1 = canon g.1
      split <;> rfl
  · next hnone =>
    have hother : ∀ g ∈ groups, canon g.1 ≠ canon key := fun g hg heq ↦
      hnone (List.any_eq_true.mpr ⟨g, hg, (hsame g hg).mpr heq⟩)
    refine ⟨?_, ?_, ?_, ?_⟩
    · rw [List.flatMap_append, List.map_append]
      exact h.perm.append_right _
    · intro g hg
      rcases List.mem_append.mp hg with hg | hg
      · obtain ⟨b, hb⟩ := h.key g hg
        exact ⟨b, hmem hb⟩
      · rw [List.mem_singleton.mp hg]
        exact ⟨a, hlast⟩
    · intro g hg b hb
      rcases List.mem_append.mp hg with hg | hg
      · obtain ⟨k, hk, heq⟩ := h.mem g hg b hb
        exact ⟨k, hmem hk, heq⟩
      · rw [List.mem_singleton.mp hg] at hb ⊢
        rw [List.mem_singleton.mp hb]
        exact ⟨key, hlast, rfl⟩
    · rw [List.map_append]
      refine h.distinct.append (List.nodup_singleton _) ?_
      intro c hc hc'
      obtain ⟨g, hg, rfl⟩ := List.mem_map.mp hc
      exact hother g hg (List.mem_singleton.mp hc')

/-- **Grouping**, where the test agrees with the equality of canonical keys. -/
theorem groups_group (entries : List (κ × α))
    (hsame : ∀ e ∈ entries, ∀ e' ∈ entries, (same e.1 e'.1 = true ↔ canon e.1 = canon e'.1)) :
    Groups canon entries (group same entries) := by
  induction entries using List.reverseRecOn with
  | nil => exact ⟨.refl _, by simp [group], by simp [group], List.nodup_nil⟩
  | append_singleton entries entry ih =>
    obtain ⟨key, a⟩ := entry
    have hprefix := ih fun e he e' he' ↦
      hsame e (List.mem_append_left _ he) e' (List.mem_append_left _ he')
    rw [group, List.foldl_append]
    refine hprefix.insert fun g hg ↦ ?_
    obtain ⟨b, hb⟩ := hprefix.key g hg
    exact hsame (g.1, b) (List.mem_append_left _ hb) (key, a)
      (List.mem_append_right _ (List.mem_singleton_self _))

end Grouping
