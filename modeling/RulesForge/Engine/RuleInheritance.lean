import Mathlib.Data.Set.Finite.Lemmas
import RulesForge.Rete.Network

/-!
# Rule inheritance

`KnowledgeBase::build` (`src/engine/knowledge_base.cpp`) resolves `extends` in one pass: the first
condition group of the parent, as it was declared, is put in front of every condition group of the
child. What `extends` is for (`docs/dsl.md`) is that a rule also requires the conditions of its
ancestors: `expectedGroups` has one group for every choice of a condition group of each ancestor
and of the rule itself.

The two agree exactly when nothing is left to choose and nothing stands above the parent
(`inheritance_exact`): `grandchild_loses_conditions` is a chain of three rules.
-/

namespace RulesForge

/-! ### Declared rules -/

/-- A rule as it was declared, with the attributes that only inheritance reads. -/
structure DeclaredRule extends ParsedRule where
  salienceExplicitlySet : Bool := false
  parentRuleName : Option String := none

/-- `rule_map`: of two rules with one name, the later one is found. -/
def ruleMap (rules : List DeclaredRule) (name : String) : Option DeclaredRule :=
  rules.reverse.find? fun rule ↦ decide (rule.name = name)

/-- The conditions of a parent in front of those of a child, with the attributes that the child
does not set. -/
def mergeParent (parent child : DeclaredRule) : DeclaredRule :=
  let conditionGroups :=
    match parent.conditionGroups with
    | [] => child.conditionGroups
    | parentPatterns :: _ => child.conditionGroups.map (parentPatterns ++ ·)
  { child with
    conditionGroups := conditionGroups
    salience := if child.salienceExplicitlySet then child.salience else parent.salience
    agendaGroup := child.agendaGroup <|> parent.agendaGroup }

/-- One round of the loop over the declared rules: a rule whose parent is not found is dropped. -/
def processRule (rules : List DeclaredRule) (rule : DeclaredRule) : Option DeclaredRule :=
  match rule.parentRuleName with
  | none => some rule
  | some name => (ruleMap rules name).map (mergeParent · rule)

/-- `processed_rules_`. -/
def processedRules (rules : List DeclaredRule) : List DeclaredRule :=
  rules.filterMap (processRule rules)

/-! ### What inheritance is for -/

/-- The condition groups of a rule to choose from; a rule without any is one without conditions. -/
def DeclaredRule.choices (rule : DeclaredRule) : List (List ParsedPattern) :=
  if rule.conditionGroups = [] then [[]] else rule.conditionGroups

/-- The ancestors of a rule, the parent first, up to one without parent. -/
inductive Ancestors (rules : List DeclaredRule) : DeclaredRule → List DeclaredRule → Prop
  | root {rule} : rule.parentRuleName = none → Ancestors rules rule []
  | parent {rule name parent ancestors} : rule.parentRuleName = some name →
      ruleMap rules name = some parent → Ancestors rules parent ancestors →
      Ancestors rules rule (parent :: ancestors)

/-- Every choice of a condition group of each of some rules, the last rule first. -/
def combinations : List DeclaredRule → List (List ParsedPattern)
  | [] => [[]]
  | rule :: rules => (combinations rules).flatMap fun front ↦ rule.choices.map (front ++ ·)

/-- The condition groups that a rule ought to have. -/
def expectedGroups (rule : DeclaredRule) (ancestors : List DeclaredRule) :
    List (List ParsedPattern) :=
  combinations (rule :: ancestors)

/-- The processed rule has a condition group for every choice, and no other. -/
def Inherits (rules : List DeclaredRule) (rule : DeclaredRule) (ancestors : List DeclaredRule) :
    Prop :=
  ∃ processed, processRule rules rule = some processed ∧
    ∀ group, group ∈ processed.choices ↔ group ∈ expectedGroups rule ancestors

/-- Neither patterns nor a choice of them. -/
def DeclaredRule.Unconditional (rule : DeclaredRule) : Prop :=
  ∀ group ∈ rule.choices, group = []

/-- Where one pass is enough: a rule without condition groups has ancestors without patterns, and
one with condition groups has a parent with a single choice below ancestors without patterns. -/
def OnePassSuffices (rule : DeclaredRule) : List DeclaredRule → Prop
  | [] => True
  | parent :: ancestors =>
    (∀ ancestor ∈ ancestors, ancestor.Unconditional) ∧
      if rule.conditionGroups = [] then parent.Unconditional
      else ∀ group ∈ parent.choices, some group = parent.choices.head?

/-! ### Choices -/

theorem DeclaredRule.choices_ne_nil (rule : DeclaredRule) : rule.choices ≠ [] := by
  unfold choices
  split
  · exact List.cons_ne_nil _ _
  · assumption

theorem combinations_ne_nil (rules : List DeclaredRule) : combinations rules ≠ [] := by
  induction rules with
  | nil => exact List.cons_ne_nil _ _
  | cons rule rules ih =>
    obtain ⟨front, hfront⟩ := List.exists_mem_of_ne_nil _ ih
    obtain ⟨group, hgroup⟩ := List.exists_mem_of_ne_nil _ rule.choices_ne_nil
    refine List.ne_nil_of_mem (a := front ++ group) ?_
    exact List.mem_flatMap.mpr ⟨front, hfront, List.mem_map_of_mem hgroup⟩

variable {rules : List DeclaredRule}

theorem mem_combinations_cons {rule : DeclaredRule}
    {group : List ParsedPattern} : group ∈ combinations (rule :: rules) ↔
      ∃ front ∈ combinations rules, ∃ own ∈ rule.choices, group = front ++ own := by
  simp only [combinations, List.mem_flatMap, List.mem_map, eq_comm]

/-- All combinations are empty when no rule has a pattern. -/
theorem combinations_unconditional :
    (∀ group ∈ combinations rules, group = []) ↔ ∀ rule ∈ rules, rule.Unconditional := by
  induction rules with
  | nil => simp [combinations]
  | cons rule rules ih =>
    rw [List.forall_mem_cons, ← ih]
    obtain ⟨front, hfront⟩ := List.exists_mem_of_ne_nil _ (combinations_ne_nil rules)
    obtain ⟨own, hown⟩ := List.exists_mem_of_ne_nil _ rule.choices_ne_nil
    constructor
    · intro hall
      refine ⟨fun group hgroup ↦ ?_, fun group hgroup ↦ ?_⟩
      · have h := hall _ (mem_combinations_cons.mpr ⟨front, hfront, group, hgroup, rfl⟩)
        exact (List.append_eq_nil_iff.mp h).2
      · have h := hall _ (mem_combinations_cons.mpr ⟨group, hgroup, own, hown, rfl⟩)
        exact (List.append_eq_nil_iff.mp h).1
    · rintro ⟨hrule, hrules⟩ group hgroup
      obtain ⟨front, hfront, own, hown, rfl⟩ := mem_combinations_cons.mp hgroup
      rw [hrules front hfront, hrule own hown]
      rfl

/-- Putting any of some lists in front of the members of `G` gives the same lists as putting `p` in
front of them only if there is no list but `p` to choose: the shortest and the longest member of
`G` fix the length of what is put in front. -/
theorem eq_of_mem_fronts {α : Type} {p : List α} {D G : List (List α)} (hG : G ≠ [])
    (h : ∀ l, l ∈ G.map (p ++ ·) ↔ ∃ d ∈ D, ∃ g ∈ G, l = d ++ g) {d : List α} (hd : d ∈ D) :
    d = p := by
  have hfinite : {g | g ∈ G}.Finite := List.finite_toSet G
  have hnonempty : {g | g ∈ G}.Nonempty := List.exists_mem_of_ne_nil G hG
  have hlength : ∀ g ∈ G, ∃ g' ∈ G, d ++ g = p ++ g' := by
    intro g hg
    obtain ⟨g', hg', heq⟩ := List.mem_map.mp ((h _).mpr ⟨d, hd, g, hg, rfl⟩)
    exact ⟨g', hg', heq.symm⟩
  obtain ⟨g, hg, hmin⟩ := Set.exists_min_image _ List.length hfinite hnonempty
  obtain ⟨m, hm, hmax⟩ := Set.exists_max_image _ List.length hfinite hnonempty
  obtain ⟨g', hg', heq⟩ := hlength g hg
  obtain ⟨m', hm', heq'⟩ := hlength m hm
  have hshort := congrArg List.length heq
  have hlong := congrArg List.length heq'
  simp only [List.length_append] at hshort hlong
  have hle := hmin g' hg'
  have hle' := hmax m' hm'
  exact List.append_inj_left heq (by omega)

/-- All combinations are the first choice of the parent when there is no other choice. -/
theorem combinations_eq_head {parent : DeclaredRule} {ancestors : List DeclaredRule}
    {p : List ParsedPattern} (hp : parent.choices.head? = some p) :
    (∀ group ∈ combinations (parent :: ancestors), group = p) ↔
      (∀ ancestor ∈ ancestors, ancestor.Unconditional) ∧
        ∀ group ∈ parent.choices, some group = parent.choices.head? := by
  have hmem : p ∈ parent.choices := List.mem_of_mem_head? hp
  obtain ⟨front, hfront⟩ := List.exists_mem_of_ne_nil _ (combinations_ne_nil ancestors)
  rw [← combinations_unconditional]
  constructor
  · intro hall
    have hempty : ∀ group ∈ combinations ancestors, group = [] := by
      intro group hgroup
      have h := hall _ (mem_combinations_cons.mpr ⟨group, hgroup, p, hmem, rfl⟩)
      exact List.append_left_eq_self.mp h
    refine ⟨hempty, fun group hgroup ↦ ?_⟩
    have h := hall _ (mem_combinations_cons.mpr ⟨front, hfront, group, hgroup, rfl⟩)
    rw [hempty front hfront] at h
    rw [hp, ← h]
    rfl
  · rintro ⟨hempty, hparent⟩ group hgroup
    obtain ⟨front, hfront, own, hown, rfl⟩ := mem_combinations_cons.mp hgroup
    rw [hempty front hfront]
    have h := hparent own hown
    rw [hp] at h
    exact Option.some.inj h

/-! ### One pass -/

theorem mergeParent_conditionGroups (parent child : DeclaredRule) {p : List ParsedPattern}
    (hp : parent.choices.head? = some p) :
    (mergeParent parent child).conditionGroups = child.conditionGroups.map (p ++ ·) := by
  unfold mergeParent
  cases hgroups : parent.conditionGroups with
  | nil =>
    obtain rfl : [] = p := by simpa [DeclaredRule.choices, hgroups] using hp
    simp
  | cons group groups =>
    obtain rfl : group = p := by simpa [DeclaredRule.choices, hgroups] using hp
    rfl

/-- **When a rule inherits**: the processed rule has the condition groups that it ought to have if
and only if one pass suffices. -/
theorem inherits_iff {rule : DeclaredRule}
    {ancestors : List DeclaredRule} (h : Ancestors rules rule ancestors) :
    Inherits rules rule ancestors ↔ OnePassSuffices rule ancestors := by
  unfold Inherits expectedGroups
  cases h with
  | root hroot =>
    refine iff_of_true ⟨rule, by simp [processRule, hroot], fun group ↦ ?_⟩ trivial
    simp [combinations]
  | @parent _ name parent ancestors hname hfound _ =>
    obtain ⟨p, hp⟩ : ∃ p, parent.choices.head? = some p := by
      cases hchoices : parent.choices with
      | nil => exact absurd hchoices parent.choices_ne_nil
      | cons p _ => exact ⟨p, rfl⟩
    have hprocessed : processRule rules rule = some (mergeParent parent rule) := by
      simp [processRule, hname, hfound]
    have hgroups := mergeParent_conditionGroups parent rule hp
    simp only [hprocessed, Option.some.injEq, exists_eq_left', OnePassSuffices]
    by_cases hempty : rule.conditionGroups = []
    · rw [if_pos hempty]
      have hmerged : (mergeParent parent rule).choices = [[]] := by
        simp [DeclaredRule.choices, hgroups, hempty]
      have hrule : rule.Unconditional := by simp [DeclaredRule.Unconditional,
        DeclaredRule.choices, hempty]
      rw [hmerged]
      constructor
      · intro hiff
        have hall : ∀ group ∈ combinations (rule :: parent :: ancestors), group = [] :=
          fun group hgroup ↦ List.mem_singleton.mp ((hiff group).mpr hgroup)
        have hunconditional := combinations_unconditional.mp hall
        exact ⟨fun ancestor hmem ↦ hunconditional ancestor (by simp [hmem]),
          hunconditional parent (by simp)⟩
      · rintro ⟨hancestors, hparent⟩ group
        have hall : ∀ group ∈ combinations (rule :: parent :: ancestors), group = [] := by
          refine combinations_unconditional.mpr ?_
          simpa [hrule, hparent] using hancestors
        obtain ⟨group', hgroup'⟩ :=
          List.exists_mem_of_ne_nil _ (combinations_ne_nil (rule :: parent :: ancestors))
        rw [List.mem_singleton]
        exact ⟨fun heq ↦ heq ▸ hall group' hgroup' ▸ hgroup', hall group⟩
    · rw [if_neg hempty, ← combinations_eq_head hp]
      have hmerged : (mergeParent parent rule).choices = rule.conditionGroups.map (p ++ ·) := by
        simp [DeclaredRule.choices, hgroups, hempty]
      have hexpected : ∀ group, group ∈ combinations (rule :: parent :: ancestors) ↔
          ∃ front ∈ combinations (parent :: ancestors), ∃ own ∈ rule.conditionGroups,
            group = front ++ own := by
        intro group
        rw [mem_combinations_cons, show rule.choices = rule.conditionGroups from if_neg hempty]
      simp only [hmerged, hexpected]
      constructor
      · exact fun hiff group hgroup ↦ eq_of_mem_fronts hempty hiff hgroup
      · intro hall group
        obtain ⟨front, hfront⟩ :=
          List.exists_mem_of_ne_nil _ (combinations_ne_nil (parent :: ancestors))
        rw [List.mem_map]
        constructor
        · rintro ⟨own, hown, rfl⟩
          exact ⟨front, hfront, own, hown, by rw [hall front hfront]⟩
        · rintro ⟨d, hd, own, hown, rfl⟩
          exact ⟨own, hown, by rw [hall d hd]⟩

/-- A rule is kept unless it extends a rule that is not declared. -/
theorem processRule_isSome_iff {rule : DeclaredRule} :
    (processRule rules rule).isSome = true ↔
      ∀ name, rule.parentRuleName = some name → ∃ parent ∈ rules, parent.name = name := by
  unfold processRule
  cases rule.parentRuleName with
  | none => simp
  | some name => simp [ruleMap, Option.isSome_map, List.find?_isSome]

/-- **When inheritance is what it is for**: every rule with a finished chain of ancestors inherits
all their conditions and no rule is dropped if and only if one pass suffices for each such rule
and every rule extends a declared one. -/
theorem inheritance_exact (rules : List DeclaredRule) :
    (∀ rule ∈ rules, ∀ ancestors, Ancestors rules rule ancestors →
        Inherits rules rule ancestors) ∧ (processedRules rules).length = rules.length ↔
      (∀ rule ∈ rules, ∀ ancestors, Ancestors rules rule ancestors →
        OnePassSuffices rule ancestors) ∧
      ∀ rule ∈ rules, ∀ name, rule.parentRuleName = some name →
        ∃ parent ∈ rules, parent.name = name := by
  refine and_congr ?_ ?_
  · exact forall₄_congr fun rule _ ancestors hancestors ↦ inherits_iff hancestors
  · rw [processedRules, List.filterMap_length_eq_length]
    exact forall₂_congr fun rule _ ↦ processRule_isSome_iff

/-! ### A chain of three rules -/

/-- A rule with one condition group of one pattern, that of a fact type. -/
def typeRule (name factType : String) (parent : Option String) : DeclaredRule :=
  { name := name, parentRuleName := parent, conditionGroups := [[{ factType := factType }]] }

/-- `"c" extends "b"`, `"b" extends "a"`. -/
def threeRules : List DeclaredRule :=
  [typeRule "a" "A" none, typeRule "b" "B" (some "a"), typeRule "c" "C" (some "b")]

/-- The processed `"c"` requires a `B` and a `C`, but no `A`: its only condition group is not the
one of all three rules. -/
theorem grandchild_loses_conditions :
    Ancestors threeRules (typeRule "c" "C" (some "b"))
        [typeRule "b" "B" (some "a"), typeRule "a" "A" none] ∧
      ¬ Inherits threeRules (typeRule "c" "C" (some "b"))
        [typeRule "b" "B" (some "a"), typeRule "a" "A" none] := by
  have hancestors : Ancestors threeRules (typeRule "c" "C" (some "b"))
      [typeRule "b" "B" (some "a"), typeRule "a" "A" none] :=
    .parent rfl rfl (.parent rfl rfl (.root rfl))
  refine ⟨hancestors, fun hinherits ↦ ?_⟩
  have hunconditional := ((inherits_iff hancestors).mp hinherits).1 _ (List.mem_singleton_self _)
  exact absurd (hunconditional _ (List.mem_singleton_self _)) (List.cons_ne_nil _ _)

end RulesForge
