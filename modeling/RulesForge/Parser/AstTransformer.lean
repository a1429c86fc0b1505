import RulesForge.Core.Constraint

/-!
# Expansion of `forall`

`AstTransformer::expand_foralls_in_list` (`src/parser/src/ast_transformer.cpp`) replaces
`forall(A, B1, …, Bn)` by a NOT over a single **violating pattern**: `A` with its constraint
tree extended by the negation of the conjunction of the trees of the `Bi`. The negation
pushes through AND and OR by De Morgan and replaces the operator of each leaf.
-/

namespace RulesForge

/-- `negate_constraint`. A leaf without operator becomes a comparison with nil. -/
def negateConstraint (c : ParsedConstraint) : ParsedConstraint :=
  if c.op = .none then { c with op := .eq, rightLiteral := some .nil }
  else { c with op := negateCompareOp c.op }

namespace ConstraintNode

mutual

/-- `negate_constraint_tree`. -/
def negate : ConstraintNode → ConstraintNode
  | leaf c => leaf (negateConstraint c)
  | and children => or (negateAll children)
  | or children => and (negateAll children)

def negateAll : List ConstraintNode → List ConstraintNode
  | [] => []
  | child :: children => child.negate :: negateAll children

end

end ConstraintNode

/-- The conjunction of the trees of the restrictions; a pattern without one adds nothing. -/
def restrictionsRoot (restrictions : List ParsedPattern) : ConstraintNode :=
  .and (restrictions.filterMap (·.constraintRoot))

/-- The pattern `A and not (B1 and … and Bn)`. -/
def violatingPattern (base : ParsedPattern) (restrictions : List ParsedPattern) :
    ParsedPattern :=
  { base with
    constraintRoot :=
      match base.constraintRoot with
      | some root => some (.and [root, (restrictionsRoot restrictions).negate])
      | none => some (restrictionsRoot restrictions).negate }

/-- The step of the loop on one pattern. A `forall` of fewer than two patterns is left to
the semantic analyzer. -/
def expandForall (pattern : ParsedPattern) : ParsedPattern :=
  match pattern.type, pattern.forallInfo with
  | .forall, some (base :: restriction :: restrictions) =>
    { pattern with
      type := .not
      nestedPatterns := [violatingPattern base (restriction :: restrictions)]
      forallInfo := none }
  | _, _ => pattern

mutual

/-- A pattern with the `forall`s among its nested patterns, then itself, expanded. -/
def expandPattern : ParsedPattern → ParsedPattern
  | ⟨type, binding, factType, constraintRoot, nestedPatterns, forallInfo, entryPoint⟩ =>
    expandForall ⟨type, binding, factType, constraintRoot, expandForallsInList nestedPatterns,
      forallInfo, entryPoint⟩

def expandForallsInList : List ParsedPattern → List ParsedPattern
  | [] => []
  | pattern :: patterns => expandPattern pattern :: expandForallsInList patterns

end

/-! ### Leaves under negation -/

namespace ConstraintNode

mutual

theorem leaves_negate (tree : ConstraintNode) :
    tree.negate.leaves = tree.leaves.map negateConstraint := by
  match tree with
  | leaf c => rfl
  | and children => exact leavesAll_negateAll children
  | or children => exact leavesAll_negateAll children

theorem leavesAll_negateAll (children : List ConstraintNode) :
    leavesAll (negateAll children) = (leavesAll children).map negateConstraint := by
  match children with
  | [] => rfl
  | child :: children =>
    simp [negateAll, leavesAll, leaves_negate child, leavesAll_negateAll children]

end

end ConstraintNode

/-- The leaves of the violating pattern: those of `A`, and the negated leaves of the
restrictions. -/
theorem mem_leaves_violatingPattern {base : ParsedPattern} {restrictions : List ParsedPattern}
    {tree : ConstraintNode} (htree : (violatingPattern base restrictions).constraintRoot = some tree)
    {c : ParsedConstraint} :
    c ∈ tree.leaves ↔
      (∃ root, base.constraintRoot = some root ∧ c ∈ root.leaves) ∨
        ∃ b ∈ (restrictionsRoot restrictions).leaves, negateConstraint b = c := by
  cases hroot : base.constraintRoot with
  | none =>
    simp only [violatingPattern, hroot, Option.some.injEq] at htree
    rw [← htree, ConstraintNode.leaves_negate]
    simp
  | some root =>
    simp only [violatingPattern, hroot, Option.some.injEq] at htree
    rw [← htree]
    simp [ConstraintNode.leaves, ConstraintNode.leavesAll, ConstraintNode.leaves_negate]

theorem leaves_restrictionsRoot {restrictions : List ParsedPattern} {b : ParsedConstraint} :
    b ∈ (restrictionsRoot restrictions).leaves ↔
      ∃ pattern ∈ restrictions, ∃ root, pattern.constraintRoot = some root ∧ b ∈ root.leaves := by
  simp only [restrictionsRoot, ConstraintNode.leaves, ConstraintNode.mem_leavesAll,
    List.mem_filterMap]
  constructor
  · rintro ⟨root, ⟨pattern, hp, hroot⟩, hb⟩
    exact ⟨pattern, hp, root, hroot, hb⟩
  · rintro ⟨pattern, hp, root, hroot, hb⟩
    exact ⟨root, ⟨pattern, hp, hroot⟩, hb⟩

end RulesForge
