import RulesForge.Parser.ConstraintGrammar
import RulesForge.Rete.ConstraintTest

/-!
# From constraint trees to installed tests

`partition_constraints` (`src/engine/knowledge_base.cpp`) walks a pattern's tree and sorts
its leaves into alpha constraints and join constraints; the builder puts the first on a
chain of alpha nodes, one node a leaf, and hands the second, with inline variables resolved
(`normalize_inline_bound_fields`, `src/rete/beta_builder.cpp`), to the join or condition
node. What a pattern tests is then the **conjunction** of all its leaves
(`accepts_installedTests_iff`): the AND/OR structure is gone. A tree keeps its meaning on a
token and a fact exactly when no OR node of an accepted tree has a branch that rejects them.
-/

namespace RulesForge

open ConstraintNode

/-! ### The installed tests -/

mutual

/-- `partition_constraints`: alpha leaves to the left list, join leaves to the right one. -/
def partitionConstraints : ConstraintNode → List ParsedConstraint × List ParsedConstraint →
    List ParsedConstraint × List ParsedConstraint
  | .leaf c, (alphas, joins) => if c.isJoin then (alphas, joins ++ [c]) else (alphas ++ [c], joins)
  | .and children, out => partitionChildren children out
  | .or children, out => partitionChildren children out

/-- The loop over a node's children. -/
def partitionChildren : List ConstraintNode → List ParsedConstraint × List ParsedConstraint →
    List ParsedConstraint × List ParsedConstraint
  | [], out => out
  | child :: children, out => partitionChildren children (partitionConstraints child out)

end

/-- Whether a reference to an inline variable stands for the variable's own field. -/
def shouldReplaceField (field binding : String) : Bool :=
  field = "" || field = "this" || field = binding ||
    (binding.toList.head? == some '$' && field.toList == binding.toList.tail)

/-- The field a reference reads once inline variables are resolved. -/
def normalizedField (inlineFields : ScalarFields) (binding field : String) : String :=
  match inlineFields.lookup binding with
  | some source => if shouldReplaceField field binding then source else field
  | none => field

/-- One round of `normalize_inline_bound_fields`. -/
def normalizeInlineBoundField (inlineFields : ScalarFields) (c : ParsedConstraint) :
    ParsedConstraint :=
  { c with
    leftField :=
      match c.leftBinding with
      | some binding => normalizedField inlineFields binding c.leftField
      | none => c.leftField
    rightBoundField :=
      c.rightBoundField.map fun bound ↦ (bound.1, normalizedField inlineFields bound.1 bound.2) }

/-- The tests the builder installs for one pattern. -/
structure InstalledTests where
  alphas : List ParsedConstraint
  joins : List ParsedConstraint

/-- `partition_and_get_alpha_root` followed by `normalize_inline_bound_fields`. -/
def installedTests (inlineFields : ScalarFields) (root : Option ConstraintNode) :
    InstalledTests :=
  match root with
  | none => ⟨[], []⟩
  | some tree =>
    let (alphas, joins) := partitionConstraints tree ([], [])
    ⟨alphas, joins.map (normalizeInlineBoundField inlineFields)⟩

section Tests

variable (env : RuntimeEnv) (heap : Heap) (bindings : Bindings) (inlineFields : ScalarFields)
  (token : TokenWME) (fact : FactPtr)

/-- A fact passes the alpha chain, and the pair passes the join conditions. -/
def InstalledTests.accepts (tests : InstalledTests) : Bool :=
  tests.alphas.all (checkConstraint env heap · fact) &&
    checkAllJoinConditions env heap bindings inlineFields token fact tests.joins

/-- The test of a single leaf: that of the node its kind puts it on. -/
def leafTest (c : ParsedConstraint) : Bool :=
  if c.isJoin then
    checkJoin env heap bindings inlineFields token fact (normalizeInlineBoundField inlineFields c)
  else checkConstraint env heap c fact

end Tests

/-! ### What the partition keeps -/

mutual

theorem partitionConstraints_eq (tree : ConstraintNode)
    (out : List ParsedConstraint × List ParsedConstraint) :
    partitionConstraints tree out =
      (out.1 ++ tree.leaves.filter (!·.isJoin), out.2 ++ tree.leaves.filter (·.isJoin)) := by
  match tree with
  | .leaf c => by_cases h : c.isJoin <;> simp [partitionConstraints, leaves, h]
  | .and children => simpa [partitionConstraints, leaves] using partitionChildren_eq children out
  | .or children => simpa [partitionConstraints, leaves] using partitionChildren_eq children out

theorem partitionChildren_eq (children : List ConstraintNode)
    (out : List ParsedConstraint × List ParsedConstraint) :
    partitionChildren children out =
      (out.1 ++ (leavesAll children).filter (!·.isJoin),
        out.2 ++ (leavesAll children).filter (·.isJoin)) := by
  match children with
  | [] => simp [partitionChildren, leavesAll]
  | child :: children =>
    rw [partitionChildren, partitionConstraints_eq child out, partitionChildren_eq children]
    simp [leavesAll]

end

section Tests

variable {env : RuntimeEnv} {heap : Heap} {bindings : Bindings} {inlineFields : ScalarFields}
  {token : TokenWME} {fact : FactPtr}

/-- **The conjunction of the leaves**: what is installed for a tree accepts a token and a
fact exactly when every leaf does, whatever nodes the leaves stand under. -/
theorem accepts_installedTests_iff {tree : ConstraintNode} :
    (installedTests inlineFields (some tree)).accepts env heap bindings inlineFields token fact
        = true ↔
      ∀ c ∈ tree.leaves, leafTest env heap bindings inlineFields token fact c = true := by
  simp only [installedTests, partitionConstraints_eq, InstalledTests.accepts, List.nil_append,
    checkAllJoinConditions, Bool.and_eq_true, List.all_map, List.all_eq_true, List.mem_filter,
    Function.comp_apply, and_imp, leafTest]
  constructor
  · rintro ⟨halpha, hjoin⟩ c hc
    by_cases h : c.isJoin
    · simpa [h] using hjoin c hc h
    · simpa [h] using halpha c hc (by simpa using h)
  · intro hall
    refine ⟨fun c hc h ↦ ?_, fun c hc h ↦ ?_⟩
    · simpa [show c.isJoin = false by simpa using h] using hall c hc
    · simpa [h] using hall c hc

end Tests

/-! ### Trees that keep their meaning -/

namespace ConstraintNode

mutual

/-- Some OR node of the tree has a branch that evaluates to false. -/
def hasRejectedOrBranch (test : ParsedConstraint → Bool) : ConstraintNode → Bool
  | leaf _ => false
  | and children => anyRejectedOrBranch test children
  | or children => !evalAll test children || anyRejectedOrBranch test children

def anyRejectedOrBranch (test : ParsedConstraint → Bool) : List ConstraintNode → Bool
  | [] => false
  | child :: children => child.hasRejectedOrBranch test || anyRejectedOrBranch test children

end

variable {test : ParsedConstraint → Bool}

theorem anyRejectedOrBranch_eq_false_iff {children : List ConstraintNode} :
    anyRejectedOrBranch test children = false ↔
      ∀ child ∈ children, child.hasRejectedOrBranch test = false := by
  induction children with
  | nil => simp [anyRejectedOrBranch]
  | cons child children ih => simp [anyRejectedOrBranch, ih]

/-- If every leaf holds, so does the tree. -/
theorem eval_of_forall_leaves {tree : ConstraintNode} (hors : tree.orsNonempty = true)
    (hall : ∀ c ∈ tree.leaves, test c = true) : tree.eval test = true := by
  induction tree using ConstraintNode.induction with
  | leaf c => exact hall c (by simp [leaves])
  | and children ih =>
    refine eval_and.mpr fun child hc ↦ ?_
    exact ih child hc (orsNonempty_and.mp hors child hc)
      fun c hmem ↦ hall c (mem_leavesAll.mpr ⟨child, hc, hmem⟩)
  | or children ih =>
    obtain ⟨hne, hors⟩ := orsNonempty_or.mp hors
    obtain ⟨child, hc⟩ := List.exists_mem_of_ne_nil children hne
    refine eval_or.mpr ⟨child, hc, ih child hc (hors child hc) fun c hmem ↦ ?_⟩
    exact hall c (mem_leavesAll.mpr ⟨child, hc, hmem⟩)

/-- If every leaf holds, no branch of an OR node is rejected. -/
theorem hasRejectedOrBranch_of_forall_leaves {tree : ConstraintNode}
    (hors : tree.orsNonempty = true) (hall : ∀ c ∈ tree.leaves, test c = true) :
    tree.hasRejectedOrBranch test = false := by
  induction tree using ConstraintNode.induction with
  | leaf c => rfl
  | and children ih =>
    refine anyRejectedOrBranch_eq_false_iff.mpr fun child hc ↦ ?_
    exact ih child hc (orsNonempty_and.mp hors child hc)
      fun c hmem ↦ hall c (mem_leavesAll.mpr ⟨child, hc, hmem⟩)
  | or children ih =>
    obtain ⟨_, hors⟩ := orsNonempty_or.mp hors
    have hleaves : ∀ child ∈ children, ∀ c ∈ child.leaves, test c = true :=
      fun child hc c hmem ↦ hall c (mem_leavesAll.mpr ⟨child, hc, hmem⟩)
    have hbranches : evalAll test children = true :=
      evalAll_eq_true_iff.mpr fun child hc ↦
        eval_of_forall_leaves (hors child hc) (hleaves child hc)
    have hbelow : anyRejectedOrBranch test children = false :=
      anyRejectedOrBranch_eq_false_iff.mpr fun child hc ↦
        ih child hc (hors child hc) (hleaves child hc)
    simp [hasRejectedOrBranch, hbranches, hbelow]

/-- An accepted tree without a rejected OR branch has no failing leaf. -/
theorem forall_leaves_of_eval {tree : ConstraintNode} (heval : tree.eval test = true)
    (hkeep : tree.hasRejectedOrBranch test = false) : ∀ c ∈ tree.leaves, test c = true := by
  induction tree using ConstraintNode.induction with
  | leaf c => simpa [leaves] using heval
  | and children ih =>
    intro c hc
    obtain ⟨child, hchild, hc⟩ := mem_leavesAll.mp hc
    exact ih child hchild (eval_and.mp heval child hchild)
      (anyRejectedOrBranch_eq_false_iff.mp hkeep child hchild) c hc
  | or children ih =>
    intro c hc
    obtain ⟨child, hchild, hc⟩ := mem_leavesAll.mp hc
    -- no branch is rejected here, so the branch that holds `c` is accepted as well
    have hkeep : evalAll test children = true ∧ anyRejectedOrBranch test children = false := by
      simpa [hasRejectedOrBranch] using hkeep
    exact ih child hchild (evalAll_eq_true_iff.mp hkeep.1 child hchild)
      (anyRejectedOrBranch_eq_false_iff.mp hkeep.2 child hchild) c hc

end ConstraintNode

/-- **When compilation preserves a constraint tree**: the installed tests agree with the
tree on a token and a fact if and only if the tree rejects them, or accepts them with every
branch of every OR node accepting. Nothing is assumed of the tree beyond what the grammar
guarantees, that an OR node has a branch. -/
theorem installedTests_agree_iff (env : RuntimeEnv) (heap : Heap) (bindings : Bindings)
    (inlineFields : ScalarFields) (token : TokenWME) (fact : FactPtr) (tree : ConstraintNode)
    (hors : tree.orsNonempty = true) :
    ((installedTests inlineFields (some tree)).accepts env heap bindings inlineFields token fact
        = tree.eval (leafTest env heap bindings inlineFields token fact)) ↔
      (tree.eval (leafTest env heap bindings inlineFields token fact) = true →
        tree.hasRejectedOrBranch (leafTest env heap bindings inlineFields token fact)
          = false) := by
  rw [Bool.eq_iff_iff, accepts_installedTests_iff]
  constructor
  · intro hiff heval
    exact hasRejectedOrBranch_of_forall_leaves hors (hiff.mpr heval)
  · intro hkeep
    refine ⟨eval_of_forall_leaves hors, fun heval ↦ ?_⟩
    exact forall_leaves_of_eval heval (hkeep heval)

/-! ### A conjunction and a disjunction -/

/-- No expression text has a value. -/
def noExpressions : RuntimeEnv where
  evaluateRuntimeExpression _ _ _ _ := none

/-- The constraint `field == i`. -/
def fieldEquals (field : String) (i : ℤ) : ParsedConstraint :=
  { leftField := field, op := .eq, rightLiteral := some (.int64 i) }

/-- One fact, at address `1`, with `x = 1` and `y = 2`. -/
def pointHeap : Heap := fun _ ↦
  { id := 1, type := "A", fields := [("x", .int64 1), ("y", .int64 2)] }

/-- On `A(x == 1, y == 2)` the installed tests agree with the tree. -/
theorem installedTests_agree_conjunction :
    (parseConstraintExpr (fieldEquals "x" 1, [fieldEquals "y" 2]) []).orsNonempty = true ∧
      ((installedTests [] (some (parseConstraintExpr (fieldEquals "x" 1, [fieldEquals "y" 2]) []))
          ).accepts noExpressions pointHeap [] [] .root 1 =
        (parseConstraintExpr (fieldEquals "x" 1, [fieldEquals "y" 2]) []).eval
          (leafTest noExpressions pointHeap [] [] .root 1)) :=
  ⟨by decide, (installedTests_agree_iff noExpressions pointHeap [] [] .root 1 _
    (by decide)).mpr (by decide)⟩

/-- On `A(x == 1 || x == 2)` the tree accepts the fact with `x = 1`, and the two alpha nodes
installed for it reject the fact. -/
theorem installedTests_lose_disjunction :
    (parseConstraintExpr (fieldEquals "x" 1, []) [(fieldEquals "x" 2, [])]).eval
        (leafTest noExpressions pointHeap [] [] .root 1) = true ∧
      (installedTests [] (some (parseConstraintExpr (fieldEquals "x" 1, [])
        [(fieldEquals "x" 2, [])]))).accepts noExpressions pointHeap [] [] .root 1 = false := by
  decide

end RulesForge
