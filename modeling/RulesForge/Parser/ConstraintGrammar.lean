import RulesForge.Core.Constraint

/-!
# The grammar of constraint expressions

The semantic actions of `or_expr` and `and_expr` in `parser/rfl_grammar_lemon.y`. The
grammar has no parentheses around constraints: an expression is a sequence of conjunctions
separated by `||`, a conjunction a sequence of constraint items separated by `&&` or `,`.
Both rules are left-recursive, and each step appends to the node it has built so far.
-/

namespace RulesForge

open ConstraintNode

/-- `and_expr(L) && constraint_item(R)` and `and_expr(L) , constraint_item(R)`. -/
def andExpr (left right : ConstraintNode) : ConstraintNode :=
  match left with
  | .and children => .and (children ++ [right])
  | _ => .and [left, right]

/-- `or_expr(L) || and_expr(R)`. -/
def orExpr (left right : ConstraintNode) : ConstraintNode :=
  match left with
  | .or children => .or (children ++ [right])
  | _ => .or [left, right]

/-- A conjunction of constraint items, as the reductions build it from left to right. -/
def parseAndExpr (item : ParsedConstraint) (items : List ParsedConstraint) : ConstraintNode :=
  items.foldl (fun left c ↦ andExpr left (.leaf c)) (.leaf item)

/-- A constraint expression: conjunctions, each a first item with those that follow it. -/
def parseConstraintExpr (first : ParsedConstraint × List ParsedConstraint)
    (rest : List (ParsedConstraint × List ParsedConstraint)) : ConstraintNode :=
  rest.foldl (fun left conj ↦ orExpr left (parseAndExpr conj.1 conj.2))
    (parseAndExpr first.1 first.2)

namespace ConstraintNode

mutual

/-- Every OR node of the tree has a branch. -/
def orsNonempty : ConstraintNode → Bool
  | leaf _ => true
  | and children => orsNonemptyAll children
  | or children => !children.isEmpty && orsNonemptyAll children

def orsNonemptyAll : List ConstraintNode → Bool
  | [] => true
  | child :: children => child.orsNonempty && orsNonemptyAll children

end

theorem orsNonemptyAll_eq_true_iff {children : List ConstraintNode} :
    orsNonemptyAll children = true ↔ ∀ child ∈ children, child.orsNonempty = true := by
  induction children with
  | nil => simp [orsNonemptyAll]
  | cons child children ih => simp [orsNonemptyAll, ih]

theorem orsNonempty_and {children : List ConstraintNode} :
    (and children).orsNonempty = true ↔ ∀ child ∈ children, child.orsNonempty = true :=
  orsNonemptyAll_eq_true_iff

theorem orsNonempty_or {children : List ConstraintNode} :
    (or children).orsNonempty = true ↔
      children ≠ [] ∧ ∀ child ∈ children, child.orsNonempty = true := by
  simp [orsNonempty, orsNonemptyAll_eq_true_iff]

end ConstraintNode

/-! ### The trees the grammar builds -/

theorem orsNonempty_andExpr {left right : ConstraintNode} (hl : left.orsNonempty = true)
    (hr : right.orsNonempty = true) : (andExpr left right).orsNonempty = true := by
  cases left with
  | and children =>
    rw [orsNonempty_and] at hl
    simp only [andExpr, orsNonempty_and, List.mem_append, List.mem_singleton]
    rintro child (hc | rfl)
    · exact hl child hc
    · exact hr
  | leaf c => simpa [andExpr, orsNonempty_and] using ⟨hl, hr⟩
  | or children => simpa [andExpr, orsNonempty_and] using ⟨hl, hr⟩

theorem orsNonempty_orExpr {left right : ConstraintNode} (hl : left.orsNonempty = true)
    (hr : right.orsNonempty = true) : (orExpr left right).orsNonempty = true := by
  cases left with
  | or children =>
    obtain ⟨_, hl⟩ := orsNonempty_or.mp hl
    refine orsNonempty_or.mpr ⟨by simp, ?_⟩
    simp only [List.mem_append, List.mem_singleton]
    rintro child (hc | rfl)
    · exact hl child hc
    · exact hr
  | leaf c => simpa [orExpr, orsNonempty_or] using ⟨hl, hr⟩
  | and children => simpa [orExpr, orsNonempty_or] using ⟨hl, hr⟩

theorem orsNonempty_parseAndExpr (item : ParsedConstraint) (items : List ParsedConstraint) :
    (parseAndExpr item items).orsNonempty = true := by
  suffices ∀ left : ConstraintNode, left.orsNonempty = true →
      (items.foldl (fun left c ↦ andExpr left (.leaf c)) left).orsNonempty = true from
    this _ rfl
  induction items with
  | nil => exact fun left hl ↦ hl
  | cons c items ih => exact fun left hl ↦ ih _ (orsNonempty_andExpr hl rfl)

/-- **No empty disjunction**: the grammar builds an OR node only to put branches into it. -/
theorem orsNonempty_parseConstraintExpr (first : ParsedConstraint × List ParsedConstraint)
    (rest : List (ParsedConstraint × List ParsedConstraint)) :
    (parseConstraintExpr first rest).orsNonempty = true := by
  suffices ∀ left : ConstraintNode, left.orsNonempty = true →
      (rest.foldl (fun left conj ↦ orExpr left (parseAndExpr conj.1 conj.2)) left).orsNonempty
        = true from
    this _ (orsNonempty_parseAndExpr first.1 first.2)
  induction rest with
  | nil => exact fun left hl ↦ hl
  | cons conj rest ih =>
    exact fun left hl ↦ ih _ (orsNonempty_orExpr hl (orsNonempty_parseAndExpr conj.1 conj.2))

end RulesForge
