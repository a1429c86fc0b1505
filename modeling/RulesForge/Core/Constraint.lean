import RulesForge.Core.Compare

/-!
# Constraints and patterns

The parsed form of a rule's left-hand side (`include/core/constraint_types.hpp`,
`include/core/parsed_rule.hpp`): leaf constraints, the AND/OR tree the grammar builds from
them, and patterns.
-/

namespace RulesForge

structure ParsedTemporalConstraint where
  op : TemporalOp := .none
  lhsField : String := ""
  rhsBindingAndField : String × String := ("", "")
  windowMs : ℤ := -1
  deriving DecidableEq

/-- One comparison. Its right-hand side is a field of a binding, an arithmetic expression,
a literal, or a list of values; the paths the source caches in it are recomputed here. -/
structure ParsedConstraint where
  fieldBinding : Option String := none
  leftBinding : Option String := none
  leftField : String := ""
  op : CompareOp := .none
  rightLiteral : Option ConstraintValue := none
  rightBoundField : Option (String × String) := none
  rightValueList : Option (List ConstraintValue) := none
  temporalConstraint : Option ParsedTemporalConstraint := none
  rightArithExpr : Option String := none

/-- The AND/OR tree over leaf constraints. -/
inductive ConstraintNode where
  | leaf (constraint : ParsedConstraint)
  | and (children : List ConstraintNode)
  | or (children : List ConstraintNode)

inductive PatternType where
  | standard | not | exists | forall
  deriving DecidableEq, Repr

/-- A condition element. The nested patterns of a NOT or an EXISTS and the patterns of a
`forall` are patterns themselves. `entryPoint` is the source of a pattern that names one. -/
structure ParsedPattern where
  type : PatternType := .standard
  binding : String := ""
  factType : String := ""
  constraintRoot : Option ConstraintNode := none
  nestedPatterns : List ParsedPattern := []
  forallInfo : Option (List ParsedPattern) := none
  entryPoint : Option String := none

namespace ConstraintNode

mutual

/-- The meaning of a tree over an interpretation of its leaves: an AND node accepts when
every branch does, an OR node when one of them does. -/
def eval (test : ParsedConstraint → Bool) : ConstraintNode → Bool
  | leaf constraint => test constraint
  | and children => evalAll test children
  | or children => evalAny test children

def evalAll (test : ParsedConstraint → Bool) : List ConstraintNode → Bool
  | [] => true
  | child :: children => child.eval test && evalAll test children

def evalAny (test : ParsedConstraint → Bool) : List ConstraintNode → Bool
  | [] => false
  | child :: children => child.eval test || evalAny test children

end

mutual

/-- The leaves of a tree from left to right, the order in which the recursive walks of the
compiler meet them. -/
def leaves : ConstraintNode → List ParsedConstraint
  | leaf constraint => [constraint]
  | and children => leavesAll children
  | or children => leavesAll children

def leavesAll : List ConstraintNode → List ParsedConstraint
  | [] => []
  | child :: children => child.leaves ++ leavesAll children

end

/-- Induction over a tree with the hypothesis at each child of a list. -/
@[elab_as_elim]
theorem induction {motive : ConstraintNode → Prop} (leaf : ∀ c, motive (leaf c))
    (and : ∀ children, (∀ child ∈ children, motive child) → motive (and children))
    (or : ∀ children, (∀ child ∈ children, motive child) → motive (or children))
    (tree : ConstraintNode) : motive tree :=
  @ConstraintNode.rec motive (fun children ↦ ∀ child ∈ children, motive child)
    leaf and or (by simp) (by simp +contextual) tree

variable {test : ParsedConstraint → Bool}

variable {children : List ConstraintNode}

theorem evalAll_eq_true_iff :
    evalAll test children = true ↔ ∀ child ∈ children, child.eval test = true := by
  induction children with
  | nil => simp [evalAll]
  | cons child children ih => simp [evalAll, ih]

theorem evalAny_eq_true_iff :
    evalAny test children = true ↔ ∃ child ∈ children, child.eval test = true := by
  induction children with
  | nil => simp [evalAny]
  | cons child children ih => simp [evalAny, ih]

@[simp] theorem eval_leaf (c : ParsedConstraint) : (leaf c).eval test = test c := rfl

theorem eval_and :
    (and children).eval test = true ↔ ∀ child ∈ children, child.eval test = true :=
  evalAll_eq_true_iff

theorem eval_or :
    (or children).eval test = true ↔ ∃ child ∈ children, child.eval test = true :=
  evalAny_eq_true_iff

theorem mem_leavesAll {c : ParsedConstraint} :
    c ∈ leavesAll children ↔ ∃ child ∈ children, c ∈ child.leaves := by
  induction children with
  | nil => simp [leavesAll]
  | cons child children ih => simp [leavesAll, ih]

end ConstraintNode

end RulesForge
