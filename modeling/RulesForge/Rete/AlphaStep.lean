import RulesForge.Rete.JoinInvariant

/-!
# One alpha node

An activation announces a change of a fact to an alpha node: the fact is held before it from now
on, as before, or not any more. The node brings its passing set up to date and announces to its
children what the change is for them (`alphaStep_announces`). Where the announcement is the change
of a set of facts, so is the one to the children (`alphaStep_change`).
-/

namespace RulesForge

/-- What an activation tells a node about the fact at its parent: it is held there from now on,
it is held there as before, or it is not held there any more. -/
def Announces (before after : Prop) : PropagationType → Prop
  | .assert => after
  | .modify => before ∧ after
  | .retract => ¬ after

/-- What a node tells the nodes below it. A node that tells nothing held nothing and holds
nothing; it asserts a fact that it did not hold, or was told to assert, and retracts a fact that it
held. -/
def AnnouncesNext (type : PropagationType) (before after : Prop) : Option PropagationType → Prop
  | none => ¬ before ∧ ¬ after
  | some type' => Announces before after type' ∧ (type' = .modify → type = .modify) ∧
      (type' = .assert → type = .assert ∨ ¬ before) ∧ (type' = .retract → before)

section Step

variable {kb : KnowledgeBase} {s : Session} {c : ParsedConstraint} {passing : List ℤ}
  {p : FactPtr} {type : PropagationType}

/-- **One alpha node**: it holds the fact afterwards where its parent does and the test is passed,
and it tells its children so. -/
theorem alphaStep_announces {before after old : Prop} (htype : Announces before after type)
    (hhint : type = .modify → alphaConstraintAffected c s.currentModifiedFields = false →
      (checkConstraint kb.runtime s.heap c p = true ↔ old))
    (hwas : (s.heap p).id ∈ passing ↔ before ∧ old) :
    let r := alphaStep kb c passing p type s
    let new := checkConstraint kb.runtime s.heap c p = true
    (∀ id, id ≠ (s.heap p).id → (id ∈ r.1 ↔ id ∈ passing)) ∧
      ((s.heap p).id ∈ r.1 ↔ after ∧ new) ∧
      AnnouncesNext type (before ∧ old) (after ∧ new) r.2 := by
  intro r new
  have herase : ∀ id, id ≠ (s.heap p).id →
      (id ∈ passing.filter (· ≠ (s.heap p).id) ↔ id ∈ passing) := by
    intro id hne
    simp [hne]
  have hgone : (s.heap p).id ∉ passing.filter (· ≠ (s.heap p).id) := by simp
  have hinsert : ∀ id, id ≠ (s.heap p).id → (id ∈ passing.insert (s.heap p).id ↔ id ∈ passing) := by
    intro id hne
    simp [hne]
  by_cases hretract : type = .retract
  · subst hretract
    have hafter : ¬ (after ∧ new) := fun h ↦ htype h.1
    by_cases hmem : (s.heap p).id ∈ passing
    · have hr : r = (passing.filter (· ≠ (s.heap p).id), some .retract) := by
        simp [r, alphaStep, hmem]
      rw [hr]
      exact ⟨herase, iff_of_false hgone hafter, hafter, nofun, nofun, fun _ ↦ hwas.mp hmem⟩
    · have hr : r = (passing, none) := by simp [r, alphaStep, hmem]
      rw [hr]
      exact ⟨fun _ _ ↦ Iff.rfl, iff_of_false hmem hafter, fun h ↦ hmem (hwas.mpr h), hafter⟩
  · by_cases hskip : type = .modify ∧ ¬ alphaConstraintAffected c s.currentModifiedFields
    · obtain ⟨rfl, haffected⟩ := hskip
      -- The hint says that the outcome of the test is the old one.
      have hnew : new ↔ old := hhint rfl (by simpa using haffected)
      have hmem : (s.heap p).id ∈ passing ↔ after ∧ new := by
        rw [hwas, hnew, and_iff_right htype.1, and_iff_right htype.2]
      have hr : r = (passing, if (s.heap p).id ∈ passing then some .modify else none) := by
        simp [r, alphaStep, haffected]
      rw [hr]
      refine ⟨fun _ _ ↦ Iff.rfl, hmem, ?_⟩
      split
      · next h => exact ⟨⟨hwas.mp h, hmem.mp h⟩, fun _ ↦ rfl, nofun, nofun⟩
      · next h => exact ⟨fun h' ↦ h (hwas.mpr h'), fun h' ↦ h (hmem.mpr h')⟩
    · have hafter : after := by
        cases type with
        | assert => exact htype
        | modify => exact htype.2
        | retract => exact absurd rfl hretract
      by_cases hcheck : checkConstraint kb.runtime s.heap c p = true
      · have hr : r = (passing.insert (s.heap p).id,
            some (if type = .modify ∧ ¬ (s.heap p).id ∈ passing then .assert else type)) := by
          simp only [r, alphaStep, if_neg hretract, if_neg hskip, if_pos hcheck, decide_eq_true_eq]
        rw [hr]
        refine ⟨hinsert, iff_of_true List.mem_insert_self ⟨hafter, hcheck⟩, ?_⟩
        split
        · next h =>
          exact ⟨⟨hafter, hcheck⟩, nofun, fun _ ↦ .inr fun h' ↦ h.2 (hwas.mpr h'), nofun⟩
        · next h =>
          refine ⟨?_, id, .inl, fun h' ↦ absurd h' hretract⟩
          cases type with
          | assert => exact ⟨hafter, hcheck⟩
          | retract => exact absurd rfl hretract
          | modify =>
            refine ⟨hwas.mp ?_, hafter, hcheck⟩
            by_contra hmem
            exact h ⟨rfl, hmem⟩
      · have hfails : ¬ (after ∧ new) := fun h ↦ hcheck h.2
        by_cases hmem : (s.heap p).id ∈ passing
        · have hr : r = (passing.filter (· ≠ (s.heap p).id), some .retract) := by
            simp only [r, alphaStep, if_neg hretract, if_neg hskip, if_neg hcheck, decide_eq_true_eq,
              if_pos hmem]
          rw [hr]
          exact ⟨herase, iff_of_false hgone hfails, hfails, nofun, nofun, fun _ ↦ hwas.mp hmem⟩
        · have hr : r = (passing, none) := by
            simp only [r, alphaStep, if_neg hretract, if_neg hskip, if_neg hcheck, decide_eq_true_eq,
              if_neg hmem]
          rw [hr]
          exact ⟨fun _ _ ↦ Iff.rfl, iff_of_false hmem hfails, fun h ↦ hmem (hwas.mpr h), hfails⟩

/-- **One alpha node**, told of the change of a fact before it: `B` and `A` are the facts that it
holds before and after. -/
theorem alphaStep_change {held held' B A : Set FactPtr} (hothers : ∀ g ≠ p, (g ∈ A ↔ g ∈ B))
    (hbefore : p ∈ B → p ∈ held)
    (hnew : p ∈ A ↔ p ∈ held' ∧ checkConstraint kb.runtime s.heap c p = true)
    (hhint : type = .modify → alphaConstraintAffected c s.currentModifiedFields = false →
      (p ∈ A ↔ p ∈ B))
    (hids : ∀ g ∈ B, (s.heap g).id = (s.heap p).id → g = p) (hchange : Change p held held' type)
    (hpassing : ∀ id, id ∈ passing ↔ ∃ g ∈ B, id = (s.heap g).id) :
    let r := alphaStep kb c passing p type s
    (∀ id, id ∈ r.1 ↔ ∃ g ∈ A, id = (s.heap g).id) ∧
      match r.2 with
      | none => p ∉ B ∧ p ∉ A
      | some next => Change p B A next ∧ (next = .modify → type = .modify) := by
  intro r
  have hwas : (s.heap p).id ∈ passing ↔ p ∈ held ∧ p ∈ B := by
    rw [hpassing]
    constructor
    · rintro ⟨g, hg, hid⟩
      obtain rfl := hids g hg hid.symm
      exact ⟨hbefore hg, hg⟩
    · exact fun h ↦ ⟨p, h.2, rfl⟩
  have htype : Announces (p ∈ held) (p ∈ held') type := by
    cases hchange with
    | assert _ hp => exact hp
    | retract _ hp => exact hp
    | modify hp hp' => exact ⟨hp, hp'⟩
  have hold : type = .modify → alphaConstraintAffected c s.currentModifiedFields = false →
      (checkConstraint kb.runtime s.heap c p = true ↔ p ∈ B) := by
    intro hmodify haffected
    rw [← hhint hmodify haffected, hnew]
    cases hchange with
    | modify _ hp => exact (and_iff_right hp).symm
    | assert => cases hmodify
    | retract => cases hmodify
  obtain ⟨hne, hself, hnext⟩ := alphaStep_announces htype hold hwas
  rw [← hnew] at hself hnext
  rw [and_iff_right_of_imp hbefore] at hnext
  refine ⟨fun id ↦ ?_, ?_⟩
  · by_cases hid : id = (s.heap p).id
    · rw [hid, hself]
      refine ⟨fun h ↦ ⟨p, h, rfl⟩, ?_⟩
      rintro ⟨g, hg, heq⟩
      by_cases hgp : g = p
      · exact hgp ▸ hg
      · exact absurd (hids g ((hothers g hgp).mp hg) heq.symm) hgp
    · rw [hne id hid, hpassing]
      refine exists_congr fun g ↦ ?_
      by_cases hgp : g = p
      · subst hgp
        exact iff_of_false (fun h ↦ hid h.2) fun h ↦ hid h.2
      · rw [hothers g hgp]
  · show match r.2 with
      | none => p ∉ B ∧ p ∉ A
      | some next => Change p B A next ∧ (next = .modify → type = .modify)
    change AnnouncesNext type (p ∈ B) (p ∈ A) r.2 at hnext
    cases hr : r.2 with
    | none => rwa [hr] at hnext
    | some next =>
      rw [hr] at hnext
      obtain ⟨hannounces, hmodify, hassert, hretract⟩ := hnext
      refine ⟨?_, hmodify⟩
      cases next with
      | assert =>
        refine .assert (fun hB ↦ ?_) hannounces
        rcases hassert rfl with rfl | hnot
        · cases hchange with
          | assert hp _ => exact hp (hbefore hB)
        · exact hnot hB
      | modify => exact .modify hannounces.1 hannounces.2
      | retract => exact .retract (hretract rfl) hannounces

end Step

end RulesForge
