import RulesForge.Library.AssocMap

/-!
# Supports kept in both directions

Two maps say which supporters an element has and which elements a supporter supports. They are
**inverse** when both say the same. Support is given in both maps at once; a supporter that goes is
taken out of its elements' sets one after another (`Withdrawing`), and an element that goes out of
its supporters' lists (`dropElement`).

An element is **mentioned** when one of the maps has it, be it with no supporters.
-/

/-- The supporters of the elements, and the elements that are supported. -/
structure SupportMap (φ σ : Type) where
  supporters : List (φ × List σ) := []
  supported : List (σ × List φ) := []

namespace SupportMap

variable {φ σ : Type} [DecidableEq φ] [DecidableEq σ] (m : SupportMap φ σ) {s t : σ} {f g : φ}

def supportersOf (f : φ) : List σ := (m.supporters.lookup f).getD []

def supportedBy (s : σ) : List φ := (m.supported.lookup s).getD []

/-- Both maps say the same. -/
def Inverse : Prop := ∀ f s, s ∈ m.supportersOf f ↔ f ∈ m.supportedBy s

/-- One of the maps has the element. -/
def Mentions (f : φ) : Prop := (m.supporters.lookup f).isSome = true ∨ ∃ s, f ∈ m.supportedBy s

/-! ### Operations -/

def add (s : σ) (f : φ) : SupportMap φ σ where
  supporters := AssocMap.insert f ((m.supportersOf f).insert s) m.supporters
  supported := AssocMap.insert s (m.supportedBy s ++ [f]) m.supported

/-- The element has a set of supporters from now on, as when it is looked up by `operator[]`. -/
def touch (f : φ) : SupportMap φ σ :=
  { m with supporters := AssocMap.insert f (m.supportersOf f) m.supporters }

def forget (s : σ) : SupportMap φ σ :=
  { m with supported := AssocMap.erase s m.supported }

def withdraw (s : σ) (f : φ) : SupportMap φ σ :=
  { m with supporters := AssocMap.insert f ((m.supportersOf f).filter (· ≠ s)) m.supporters }

/-- The element leaves the list of a supporter, and an empty list is dropped. -/
def unlist (f : φ) (supported : List (σ × List φ)) (s : σ) : List (σ × List φ) :=
  match supported.lookup s with
  | none => supported
  | some elements =>
    let elements := elements.filter (· ≠ f)
    if elements = [] then AssocMap.erase s supported else AssocMap.insert s elements supported

def dropElement (f : φ) : SupportMap φ σ where
  supporters := AssocMap.erase f m.supporters
  supported := (m.supportersOf f).foldl (unlist f) m.supported

/-! ### What they do -/

variable {m}

omit [DecidableEq σ] in
theorem supportersOf_insert {supporters : List σ} {supported : List (σ × List φ)} :
    supportersOf ⟨AssocMap.insert f supporters m.supporters, supported⟩ g =
      if g = f then supporters else m.supportersOf g := by
  unfold supportersOf
  by_cases hg : g = f
  · rw [if_pos hg, hg, AssocMap.lookup_insert_self]
    rfl
  · rw [if_neg hg, AssocMap.lookup_insert_ne hg]

omit [DecidableEq φ] in
theorem supportedBy_insert {elements : List φ} {supporters : List (φ × List σ)} :
    supportedBy ⟨supporters, AssocMap.insert s elements m.supported⟩ t =
      if t = s then elements else m.supportedBy t := by
  unfold supportedBy
  by_cases ht : t = s
  · rw [if_pos ht, ht, AssocMap.lookup_insert_self]
    rfl
  · rw [if_neg ht, AssocMap.lookup_insert_ne ht]

omit [DecidableEq φ] in
theorem supportedBy_erase {supporters : List (φ × List σ)} :
    supportedBy ⟨supporters, AssocMap.erase s m.supported⟩ t =
      if t = s then [] else m.supportedBy t := by
  unfold supportedBy
  by_cases ht : t = s
  · rw [if_pos ht, ht, AssocMap.lookup_erase_self]
    rfl
  · rw [if_neg ht, AssocMap.lookup_erase_ne ht]

theorem Inverse.add (h : m.Inverse) : (m.add s f).Inverse := by
  intro g t
  rw [SupportMap.add, supportersOf_insert, supportedBy_insert]
  by_cases hg : g = f
  · by_cases ht : t = s
    · rw [if_pos hg, if_pos ht, hg, ht]
      simp
    · rw [if_pos hg, if_neg ht, List.mem_insert_iff, ← h g t, hg]
      simp [ht]
  · by_cases ht : t = s
    · rw [if_neg hg, if_pos ht, List.mem_append, List.mem_singleton, ht, h g s]
      simp [hg]
    · rw [if_neg hg, if_neg ht]
      exact h g t

theorem mentions_add : (m.add s f).Mentions g → g = f ∨ m.Mentions g := by
  rintro (hsome | ⟨t, ht⟩)
  · by_cases hg : g = f
    · exact .inl hg
    · rw [SupportMap.add, AssocMap.lookup_insert_ne hg] at hsome
      exact .inr (.inl hsome)
  · rw [SupportMap.add, supportedBy_insert] at ht
    by_cases hts : t = s
    · rw [if_pos hts, List.mem_append, List.mem_singleton] at ht
      rcases ht with ht | hg
      · exact .inr (.inr ⟨s, ht⟩)
      · exact .inl hg
    · rw [if_neg hts] at ht
      exact .inr (.inr ⟨t, ht⟩)

omit [DecidableEq σ] in
theorem supportersOf_touch : (m.touch f).supportersOf g = m.supportersOf g := by
  rw [touch, supportersOf_insert]
  by_cases hg : g = f
  · rw [if_pos hg, hg]
  · rw [if_neg hg]

theorem Inverse.touch (h : m.Inverse) : (m.touch f).Inverse := by
  intro g t
  rw [supportersOf_touch]
  exact h g t

theorem mentions_of_lookup_insert {supporters : List σ}
    (h : Mentions ⟨AssocMap.insert f supporters m.supporters, m.supported⟩ g) :
    g = f ∨ m.Mentions g := by
  rcases h with hsome | hlisted
  · by_cases hg : g = f
    · exact .inl hg
    · rw [AssocMap.lookup_insert_ne hg] at hsome
      exact .inr (.inl hsome)
  · exact .inr (.inr hlisted)

/-! ### A supporter goes -/

/-- A supporter is being withdrawn: its list is gone, and it is left in the sets of some elements
only. -/
structure Withdrawing (m : SupportMap φ σ) (s : σ) (rest : List φ) : Prop where
  others : ∀ f t, t ≠ s → (t ∈ m.supportersOf f ↔ f ∈ m.supportedBy t)
  left : ∀ f, s ∈ m.supportersOf f → f ∈ rest
  unlisted : m.supportedBy s = []

theorem Inverse.forget (h : m.Inverse) : Withdrawing (m.forget s) s (m.supportedBy s) where
  others f t ht := by
    rw [SupportMap.forget, supportedBy_erase, if_neg ht]
    exact h f t
  left f hf := (h f s).mp hf
  unlisted := by rw [SupportMap.forget, supportedBy_erase, if_pos rfl]

theorem mentions_forget (h : (m.forget s).Mentions f) : m.Mentions f := by
  rcases h with hsome | ⟨t, ht⟩
  · exact .inl hsome
  · rw [SupportMap.forget, supportedBy_erase] at ht
    by_cases hts : t = s
    · rw [if_pos hts] at ht
      exact absurd ht List.not_mem_nil
    · rw [if_neg hts] at ht
      exact .inr ⟨t, ht⟩

namespace Withdrawing

variable {rest : List φ}

theorem withdraw (h : Withdrawing m s (f :: rest)) : Withdrawing (m.withdraw s f) s rest where
  others g t ht := by
    rw [SupportMap.withdraw, supportersOf_insert]
    by_cases hg : g = f
    · rw [if_pos hg, hg, List.mem_filter, decide_eq_true_eq]
      exact (and_iff_left ht).trans (h.others f t ht)
    · rw [if_neg hg]
      exact h.others g t ht
  left g hs := by
    rw [SupportMap.withdraw, supportersOf_insert] at hs
    by_cases hg : g = f
    · rw [if_pos hg, List.mem_filter, decide_eq_true_eq] at hs
      exact absurd rfl hs.2
    · rw [if_neg hg] at hs
      exact (List.mem_cons.mp (h.left g hs)).resolve_left hg
  unlisted := h.unlisted

/-- An element whose set does not have the supporter. -/
theorem skip (h : Withdrawing m s (f :: rest)) (hf : s ∉ m.supportersOf f) :
    Withdrawing m s rest where
  others := h.others
  left g hs := (List.mem_cons.mp (h.left g hs)).resolve_left fun hg ↦ hf (hg ▸ hs)
  unlisted := h.unlisted

theorem inverse (h : Withdrawing m s []) : m.Inverse := by
  intro f t
  by_cases ht : t = s
  · rw [ht, h.unlisted]
    exact iff_of_false (fun hs ↦ absurd (h.left f hs) List.not_mem_nil) List.not_mem_nil
  · exact h.others f t ht

end Withdrawing

/-! ### An element goes -/

theorem supportedBy_foldl_unlist (supporters : List (φ × List σ)) (l : List σ)
    (supported : List (σ × List φ)) :
    supportedBy ⟨supporters, l.foldl (unlist f) supported⟩ t =
      if t ∈ l then (supportedBy ⟨supporters, supported⟩ t).filter (· ≠ f)
      else supportedBy ⟨supporters, supported⟩ t := by
  have hone : ∀ (supported : List (σ × List φ)) (s : σ),
      supportedBy ⟨supporters, unlist f supported s⟩ t =
        if t = s then (supportedBy ⟨supporters, supported⟩ t).filter (· ≠ f)
        else supportedBy ⟨supporters, supported⟩ t := by
    intro supported s
    unfold unlist
    cases hlookup : supported.lookup s with
    | none =>
      by_cases hts : t = s
      · have hnil : supportedBy ⟨supporters, supported⟩ t = [] := by
          rw [supportedBy, hts]
          show (supported.lookup s).getD [] = []
          rw [hlookup]
          rfl
        rw [if_pos hts, hnil]
        rfl
      · rw [if_neg hts]
    | some elements =>
      have hvalue : t = s → supportedBy ⟨supporters, supported⟩ t = elements := by
        rintro rfl
        show (supported.lookup t).getD [] = elements
        rw [hlookup]
        rfl
      dsimp only
      by_cases hempty : elements.filter (· ≠ f) = []
      · rw [if_pos hempty, supportedBy_erase (m := ⟨supporters, supported⟩)]
        by_cases hts : t = s
        · rw [if_pos hts, if_pos hts, hvalue hts, hempty]
        · rw [if_neg hts, if_neg hts]
      · rw [if_neg hempty, supportedBy_insert (m := ⟨supporters, supported⟩)]
        by_cases hts : t = s
        · rw [if_pos hts, if_pos hts, hvalue hts]
        · rw [if_neg hts, if_neg hts]
  induction l generalizing supported with
  | nil => rfl
  | cons s l ih =>
    rw [List.foldl_cons, ih, hone]
    by_cases hts : t = s
    · rw [if_pos hts, if_pos (List.mem_cons.mpr (.inl hts))]
      by_cases hl : t ∈ l
      · -- taking an element out twice is taking it out once
        rw [if_pos hl, List.filter_filter]
        simp
      · rw [if_neg hl]
    · rw [if_neg hts]
      simp [hts]

theorem supportedBy_dropElement (h : m.Inverse) :
    (m.dropElement f).supportedBy t = (m.supportedBy t).filter (· ≠ f) := by
  rw [dropElement, supportedBy_foldl_unlist]
  by_cases ht : t ∈ m.supportersOf f
  · rw [if_pos ht]
    rfl
  · rw [if_neg ht]
    -- a supporter that is not in the set does not list the element
    have hnot : f ∉ m.supportedBy t := fun hf ↦ ht ((h f t).mpr hf)
    refine (List.filter_eq_self.mpr fun g hg ↦ decide_eq_true ?_).symm
    rintro rfl
    exact hnot hg

theorem supportersOf_dropElement :
    (m.dropElement f).supportersOf g = if g = f then [] else m.supportersOf g := by
  unfold supportersOf dropElement
  by_cases hg : g = f
  · rw [if_pos hg, hg, AssocMap.lookup_erase_self]
    rfl
  · rw [if_neg hg, AssocMap.lookup_erase_ne hg]

theorem Inverse.dropElement (h : m.Inverse) : (m.dropElement f).Inverse := by
  intro g t
  rw [supportersOf_dropElement, supportedBy_dropElement h, List.mem_filter, decide_eq_true_eq]
  by_cases hg : g = f
  · rw [if_pos hg]
    exact iff_of_false List.not_mem_nil fun hmem ↦ hmem.2 hg
  · rw [if_neg hg, h g t]
    exact (and_iff_left hg).symm

/-- **An element that goes** is not mentioned any more, and no other comes to be. -/
theorem mentions_dropElement (h : m.Inverse) (hmentions : (m.dropElement f).Mentions g) :
    g ≠ f ∧ m.Mentions g := by
  rcases hmentions with hsome | ⟨t, ht⟩
  · by_cases hg : g = f
    · rw [hg, SupportMap.dropElement, AssocMap.lookup_erase_self] at hsome
      contradiction
    · rw [SupportMap.dropElement, AssocMap.lookup_erase_ne hg] at hsome
      exact ⟨hg, .inl hsome⟩
  · rw [supportedBy_dropElement h, List.mem_filter, decide_eq_true_eq] at ht
    exact ⟨ht.2, .inr ⟨t, ht.1⟩⟩

end SupportMap
