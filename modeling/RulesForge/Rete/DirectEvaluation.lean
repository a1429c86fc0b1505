import Mathlib.Data.String.Basic
import RulesForge.Rete.Delivered

/-!
# Direct evaluation of rules

What the conditions of a rule mean, without a network: `evaluate` runs through the patterns of a
condition group with one loop over working memory for each, and lists the tuples of facts that
satisfy them. A variable stands for the fact of the latest pattern that binds it.

The evaluation covers **plain** groups: standard patterns, NOT and EXISTS with one nested pattern,
each with a conjunction of comparisons of a field with a literal or with a field of a variable of
an earlier pattern. The values on the two sides of a comparison are all integers or all texts
(`ValueKind`). On such values the tests of the network are those of the evaluation
(`checkConstraint_eq_holds`, `checkJoin_eq_holds`), and an index never hides a match
(`nodeTest_iff_holds`).
-/

namespace RulesForge

/-! ### Comparisons -/

/-- The six comparisons in an order. -/
def CompareOp.relates {α : Type} [LinearOrder α] (op : CompareOp) (a b : α) : Bool :=
  match op with
  | .eq => decide (a = b)
  | .ne => decide (a ≠ b)
  | .gt => decide (b < a)
  | .lt => decide (a < b)
  | .ge => decide (b ≤ a)
  | .le => decide (a ≤ b)
  | _ => false

/-- A comparison of two integers or of two texts. -/
def CompareOp.relatesValues (op : CompareOp) : ConstraintValue → ConstraintValue → Bool
  | .int64 a, .int64 b => op.relates a b
  | .string a, .string b => op.relates a b
  | _, _ => false

/-- The kinds of value that plain rules compare. -/
inductive ValueKind where
  | int64 | string
  deriving DecidableEq, Repr

def ConstraintValue.hasKind : ConstraintValue → ValueKind → Bool
  | .int64 _, .int64 => true
  | .string _, .string => true
  | _, _ => false

theorem evaluateOrderedCompare_eq_relates {α : Type} [LinearOrder α] {op : CompareOp}
    (hop : op.IsComparison) (a b : α) : evaluateOrderedCompare op (compare a b) = op.relates a b := by
  rw [Bool.eq_iff_iff, evaluateOrderedCompare_iff_relates hop]
  cases op <;> first | exact hop.elim | simp [CompareOp.relates, CompareOp.Relates]

/-- On two values of one kind the test of the network is the comparison. -/
theorem evaluateCompare_eq_relatesValues (factId : FactPtr → ℤ) {op : CompareOp}
    (hop : op.IsComparison) {kind : ValueKind} {lhs rhs : ConstraintValue}
    (hlhs : lhs.hasKind kind = true) (hrhs : rhs.hasKind kind = true) :
    evaluateCompare factId op lhs rhs = op.relatesValues lhs rhs := by
  have hflag : op ≠ .hasFlag := by
    rintro rfl
    exact hop
  cases lhs with
  | int64 a =>
    cases kind with
    | string => simp [ConstraintValue.hasKind] at hlhs
    | int64 =>
      cases rhs with
      | int64 b =>
        rw [CompareOp.relatesValues, ← evaluateOrderedCompare_eq_relates hop]
        simp [evaluateCompare, hflag, comparisonNumeric, compareNumeric]
      | _ => simp [ConstraintValue.hasKind] at hrhs
  | string a =>
    cases kind with
    | int64 => simp [ConstraintValue.hasKind] at hlhs
    | string =>
      cases rhs with
      | string b =>
        rw [CompareOp.relatesValues, ← evaluateOrderedCompare_eq_relates hop,
          ← evaluateTextCompare_eq_ordered hop]
        cases op <;> first | exact hop.elim | rfl
      | _ => simp [ConstraintValue.hasKind] at hrhs
  | _ => simp [ConstraintValue.hasKind] at hlhs

/-! ### The evaluation -/

/-- The facts that variables stand for. -/
abbrev Assignment := String → Option FactPtr

section Evaluation

variable (heap : Heap)

/-- What stands on the right of a comparison. -/
def ParsedConstraint.rightValue (vars : Assignment) (c : ParsedConstraint) :
    Option ConstraintValue :=
  match c.rightBoundField with
  | some (binding, field) => (vars binding).bind (getField heap · field)
  | none => c.rightLiteral

/-- A comparison on a fact; an absent value satisfies none. -/
def ParsedConstraint.holds (vars : Assignment) (fact : FactPtr) (c : ParsedConstraint) : Bool :=
  match getField heap fact c.leftField, c.rightValue heap vars with
  | some lhs, some rhs => c.op.relatesValues lhs rhs
  | _, _ => false

/-- A fact satisfies a pattern: it has the type of the pattern and meets its constraints. A
pattern of a named entry point does not see the facts of the default one. -/
def ParsedPattern.accepts (vars : Assignment) (pattern : ParsedPattern) (fact : FactPtr) : Bool :=
  decide (pattern.source = none) && decide ((heap fact).type = pattern.factType) &&
    pattern.constraintRoot.all (·.eval (·.holds heap vars fact))

/-- The variables after a standard pattern. -/
def ParsedPattern.bind (pattern : ParsedPattern) (vars : Assignment) (fact : FactPtr) :
    Assignment :=
  if pattern.binding = "" then vars else Function.update vars pattern.binding (some fact)

/-- The tuples of facts that satisfy a list of patterns. -/
def evaluate (facts : List FactPtr) : List ParsedPattern → Assignment → List (List FactPtr)
  | [], _ => [[]]
  | pattern :: patterns, vars =>
    let hasMatch := pattern.nestedPatterns.head?.any fun nested ↦
      facts.any (nested.accepts heap vars)
    match pattern.type with
    | .standard =>
      (facts.filter (pattern.accepts heap vars)).flatMap fun f ↦
        (evaluate facts patterns (pattern.bind vars f)).map (f :: ·)
    | .not => if hasMatch then [] else evaluate facts patterns vars
    | .exists => if hasMatch then evaluate facts patterns vars else []
    | .forall => []

variable {heap} {facts : List FactPtr} {pattern : ParsedPattern} {patterns : List ParsedPattern}
  {vars : Assignment} {t : List FactPtr}

theorem mem_evaluate_standard (htype : pattern.type = .standard) :
    t ∈ evaluate heap facts (pattern :: patterns) vars ↔ ∃ f t', t = f :: t' ∧ f ∈ facts ∧
      pattern.accepts heap vars f = true ∧
      t' ∈ evaluate heap facts patterns (pattern.bind vars f) := by
  simp only [evaluate, htype, List.mem_flatMap, List.mem_filter, List.mem_map]
  constructor
  · rintro ⟨f, ⟨hf, haccepts⟩, t', ht', rfl⟩
    exact ⟨f, t', rfl, hf, haccepts, ht'⟩
  · rintro ⟨f, t', rfl, hf, haccepts, ht'⟩
    exact ⟨f, ⟨hf, haccepts⟩, t', ht', rfl⟩

theorem mem_evaluate_condition {kind : ConditionKind} {nested : ParsedPattern}
    (htype : pattern.type = (match kind with | .not => .not | .exists => .exists))
    (hnested : pattern.nestedPatterns = [nested]) :
    t ∈ evaluate heap facts (pattern :: patterns) vars ↔
      kind.Holds (∃ f ∈ facts, nested.accepts heap vars f = true) ∧
        t ∈ evaluate heap facts patterns vars := by
  have hiff : (pattern.nestedPatterns.head?.any fun nested ↦
      facts.any (nested.accepts heap vars)) = true ↔
        ∃ f ∈ facts, nested.accepts heap vars f = true := by
    simp [hnested, List.any_eq_true]
  cases kind with
  | not =>
    simp only [evaluate, htype, ConditionKind.Holds, ← hiff]
    split <;> simp_all
  | «exists» =>
    simp only [evaluate, htype, ConditionKind.Holds, ← hiff]
    split <;> simp_all

/-- No tuple is listed twice. -/
theorem evaluate_nodup (hfacts : facts.Nodup) (patterns : List ParsedPattern) (vars : Assignment) :
    (evaluate heap facts patterns vars).Nodup := by
  induction patterns generalizing vars with
  | nil => exact List.nodup_singleton _
  | cons pattern patterns ih =>
    simp only [evaluate]
    split
    · refine List.nodup_flatMap.mpr ⟨fun f _ ↦ (ih _).map (List.cons_injective), ?_⟩
      refine List.Pairwise.imp ?_ (hfacts.filter _)
      intro f g hne t ht ht'
      obtain ⟨t₁, -, rfl⟩ := List.mem_map.mp ht
      obtain ⟨t₂, -, heq⟩ := List.mem_map.mp ht'
      exact hne (List.cons.inj heq).1.symm
    · split
      · exact List.nodup_nil
      · exact ih vars
    · split
      · exact ih vars
      · exact List.nodup_nil
    · exact List.nodup_nil

end Evaluation

/-! ### Plain groups -/

/-- A tree without disjunctions. -/
inductive ConstraintNode.Conjunctive : ConstraintNode → Prop
  | leaf (c) : Conjunctive (.leaf c)
  | and {children} : (∀ child ∈ children, Conjunctive child) → Conjunctive (.and children)

/-- A plain name, or a path with at least one segment. -/
def IsFieldName (name : String) : Prop :=
  isPath name = true → parseFieldPath name ≠ []

/-- A comparison of a field with a literal, or with a field of a variable that the pattern itself
does not bind. -/
structure ParsedConstraint.Plain (kind : ParsedConstraint → ValueKind) (own : String)
    (c : ParsedConstraint) : Prop where
  comparison : c.op.IsComparison
  fieldBinding : c.fieldBinding = none
  leftBinding : c.leftBinding = none
  rightValueList : c.rightValueList = none
  temporalConstraint : c.temporalConstraint = none
  rightArithExpr : c.rightArithExpr = none
  left : IsFieldName c.leftField
  right : (∃ v, c.rightLiteral = some v ∧ v.hasKind (kind c) = true ∧ c.rightBoundField = none) ∨
    ∃ binding field, c.rightBoundField = some (binding, field) ∧ binding ≠ own ∧
      c.rightLiteral = none ∧ IsFieldName field

/-- The constraints of a pattern. -/
def ParsedPattern.constraints (pattern : ParsedPattern) : List ParsedConstraint :=
  pattern.constraintRoot.elim [] (·.leaves)

/-- A conjunction of plain constraints. -/
structure ParsedPattern.Plain (kind : ParsedConstraint → ValueKind) (pattern : ParsedPattern) :
    Prop where
  conjunctive : ∀ tree, pattern.constraintRoot = some tree → tree.Conjunctive
  constraints : ∀ c ∈ pattern.constraints, c.Plain kind pattern.binding

/-- A condition element of a plain group, with the pattern that reads working memory. -/
inductive PlainElement (kind : ParsedConstraint → ValueKind) :
    ParsedPattern → ParsedPattern → Prop
  | standard {pattern} : pattern.type = .standard → pattern.nestedPatterns = [] →
      pattern.Plain kind → PlainElement kind pattern pattern
  | nested {pattern nested} : pattern.type = .not ∨ pattern.type = .exists →
      pattern.constraintRoot = none → pattern.nestedPatterns = [nested] →
      nested.type = .standard → nested.Plain kind → PlainElement kind pattern nested

variable {kind : ParsedConstraint → ValueKind}

theorem PlainElement.plain {pattern reader : ParsedPattern}
    (h : PlainElement kind pattern reader) : reader.Plain kind := by
  cases h with
  | standard _ _ hplain => exact hplain
  | nested _ _ _ _ hplain => exact hplain

/-- The constraints of a condition element. -/
def ParsedPattern.allConstraints (pattern : ParsedPattern) : List ParsedConstraint :=
  pattern.constraints ++ pattern.nestedPatterns.flatMap (·.constraints)

theorem PlainElement.allConstraints_eq
    {pattern reader : ParsedPattern} (h : PlainElement kind pattern reader) :
    pattern.allConstraints = reader.constraints := by
  cases h with
  | standard _ hnested _ => simp [ParsedPattern.allConstraints, hnested]
  | nested _ hroot hnested _ _ =>
    simp [ParsedPattern.allConstraints, ParsedPattern.constraints, hroot, hnested]

/-- The values that the constraints of a group read from a fact have the kinds of the
constraints. -/
def ReadsKind (kind : ParsedConstraint → ValueKind) (constraints : Set ParsedConstraint)
    (heap : Heap) (f : FactPtr) : Prop :=
  ∀ c ∈ constraints,
    (∀ v, getField heap f c.leftField = some v → v.hasKind (kind c) = true) ∧
    ∀ binding field v, c.rightBoundField = some (binding, field) →
      getField heap f field = some v → v.hasKind (kind c) = true

theorem ConstraintNode.Conjunctive.eval_iff {tree : ConstraintNode} (h : tree.Conjunctive)
    {test : ParsedConstraint → Bool} :
    tree.eval test = true ↔ ∀ c ∈ tree.leaves, test c = true := by
  induction h with
  | leaf c => simp [ConstraintNode.leaves]
  | @and children _ ih =>
    simp only [ConstraintNode.eval_and, ConstraintNode.leaves, ConstraintNode.mem_leavesAll]
    constructor
    · rintro hall c ⟨child, hchild, hc⟩
      exact (ih child hchild).mp (hall child hchild) c hc
    · exact fun hall child hchild ↦ (ih child hchild).mpr fun c hc ↦ hall c ⟨child, hchild, hc⟩

theorem ParsedPattern.Plain.accepts_iff {heap : Heap}
    {pattern : ParsedPattern} (h : pattern.Plain kind) {vars : Assignment} {f : FactPtr} :
    pattern.accepts heap vars f = true ↔ pattern.source = none ∧
      (heap f).type = pattern.factType ∧ ∀ c ∈ pattern.constraints, c.holds heap vars f = true := by
  unfold ParsedPattern.accepts ParsedPattern.constraints
  cases hroot : pattern.constraintRoot with
  | none => simp
  | some tree => simp [(h.conjunctive tree hroot).eval_iff, and_assoc]

/-- A plain constraint does not look at the variable of its own pattern. -/
theorem ParsedConstraint.Plain.holds_congr {own : String}
    {heap : Heap} {c : ParsedConstraint} (h : c.Plain kind own) {vars vars' : Assignment}
    (hvars : ∀ name, name ≠ own → vars name = vars' name) (f : FactPtr) :
    c.holds heap vars f = c.holds heap vars' f := by
  have hright : c.rightValue heap vars = c.rightValue heap vars' := by
    unfold ParsedConstraint.rightValue
    rcases h.right with ⟨v, -, -, hnone⟩ | ⟨binding, field, hsome, hne, -, -⟩
    · rw [hnone]
    · rw [hsome]
      simp only [hvars binding hne]
  rw [ParsedConstraint.holds, hright, ParsedConstraint.holds]

/-! ### Tests of single constraints -/

theorem ParsedConstraint.Plain.isJoin_eq {own : String}
    {c : ParsedConstraint} (h : c.Plain kind own) : c.isJoin = c.rightBoundField.isSome := by
  simp [ParsedConstraint.isJoin, h.temporalConstraint, h.rightArithExpr]

theorem CompareOp.eq_of_relatesValues {lhs rhs : ConstraintValue}
    (h : CompareOp.eq.relatesValues lhs rhs = true) : lhs = rhs := by
  unfold CompareOp.relatesValues at h
  split at h
  · rw [of_decide_eq_true h]
  · rw [of_decide_eq_true h]
  · simp at h

section Tests

variable {kind : ParsedConstraint → ValueKind} {own : String} {constraints : Set ParsedConstraint}
  {env : RuntimeEnv} {heap : Heap} {c : ParsedConstraint} {f : FactPtr}

theorem IsFieldName.alphaField_eq {name : String} (hpath : IsFieldName name) :
    alphaField heap f name = getField heap f name := by
  unfold alphaField getField
  by_cases hname : isPath name = true
  · have hthis : name ≠ "this" := by
      rintro rfl
      exact absurd hname (by decide)
    simp [hname, hpath hname, hthis]
  · simp [hname]

/-- The test of an alpha node is the comparison. -/
theorem checkConstraint_eq_holds (hc : c.Plain kind own) (halpha : c.isJoin = false)
    (hmem : c ∈ constraints) (hkind : ReadsKind kind constraints heap f) (vars : Assignment) :
    checkConstraint env heap c f = c.holds heap vars f := by
  have hop : c.op ≠ .none := by
    intro hnone
    have hcomparison := hc.comparison
    rw [hnone] at hcomparison
    exact hcomparison
  rcases hc.right with ⟨v, hliteral, hv, hright⟩ | ⟨binding, field, hright, -, -, -⟩
  · have hrhs : alphaRightValue env heap c f = some v := by
      simp [alphaRightValue, hc.rightArithExpr, hliteral]
    have hvalue : c.rightValue heap vars = some v := by
      simp [ParsedConstraint.rightValue, hright, hliteral]
    simp only [checkConstraint, hop, false_and, if_false, ParsedConstraint.holds, hrhs, hvalue,
      hc.left.alphaField_eq]
    cases hlhs : getField heap f c.leftField with
    | none => rfl
    | some lhs => exact evaluateCompare_eq_relatesValues _ hc.comparison ((hkind c hmem).1 lhs hlhs) hv
  · simp [hc.isJoin_eq, hright] at halpha

/-! ### Tokens and assignments -/

/-- The facts that variables stand for in a tuple. -/
def assignmentOf (bindings : Bindings) (t : List FactPtr) : Assignment :=
  fun name ↦ (bindings.lookup name).bind (t[·]?)

/-- A token in the scope of bindings: they point into it, except for the variable of the pattern
that is being tested. -/
structure InScope (bindings : Bindings) (own : String) (w : TokenWME) : Prop where
  nonzero : ∀ g ∈ w.facts, g ≠ 0
  lt : ∀ {name idx}, bindings.lookup name = some idx → name ≠ own → idx < w.depth

variable {bindings : Bindings} {scalarFields : ScalarFields} {w : TokenWME}

theorem InScope.getFactAtDepth_eq (h : InScope bindings own w) {name : String} {idx : ℕ}
    (hlookup : bindings.lookup name = some idx) (hname : name ≠ own) :
    ∃ g, w.getFactAtDepth idx = some g ∧ w.facts[idx]? = some g := by
  have hlt : idx < w.facts.length := by
    rw [w.facts_length]
    exact h.lt hlookup hname
  refine ⟨w.facts[idx], ?_, List.getElem?_eq_getElem hlt⟩
  have hne : w.facts[idx] ≠ 0 := h.nonzero _ (List.getElem_mem hlt)
  unfold TokenWME.getFactAtDepth
  rw [List.getElem?_eq_getElem hlt]
  split
  · next heq => exact absurd (Option.some.inj heq) hne
  · rfl

theorem InScope.boundFact_eq (h : InScope bindings own w) {name : String} (hname : name ≠ own) :
    boundFact bindings w f name = assignmentOf bindings w.facts name := by
  unfold boundFact assignmentOf
  cases hlookup : bindings.lookup name with
  | none => rfl
  | some idx =>
    obtain ⟨g, hget, hfacts⟩ := h.getFactAtDepth_eq hlookup hname
    simp [hget, hfacts]

theorem assignmentOf_mem {t : List FactPtr} {name : String} {g : FactPtr}
    (h : assignmentOf bindings t name = some g) : g ∈ t := by
  unfold assignmentOf at h
  cases hlookup : bindings.lookup name with
  | none => simp [hlookup] at h
  | some idx =>
    rw [hlookup] at h
    exact List.mem_of_getElem? h

/-- The test of a join constraint is the comparison. -/
theorem checkJoin_eq_holds (hc : c.Plain kind own) (hjoin : c.isJoin = true)
    (hmem : c ∈ constraints) (hkind : ReadsKind kind constraints heap f)
    (hkinds : ∀ g ∈ w.facts, ReadsKind kind constraints heap g) (hscope : InScope bindings own w) :
    checkJoin env heap bindings scalarFields w f c =
      c.holds heap (assignmentOf bindings w.facts) f := by
  rcases hc.right with ⟨v, -, -, hright⟩ | ⟨binding, field, hright, hown, -, -⟩
  · simp [hc.isJoin_eq, hright] at hjoin
  · have hvalue : c.rightValue heap (assignmentOf bindings w.facts) =
        (boundFact bindings w f binding).bind (getField heap · field) := by
      simp [ParsedConstraint.rightValue, hright, hscope.boundFact_eq hown]
    simp only [checkJoin, hc.temporalConstraint, hright, joinLeftValue, hc.leftBinding,
      ParsedConstraint.holds, hvalue]
    cases hlhs : getField heap f c.leftField with
    | none => rfl
    | some lhs =>
      cases hbound : boundFact bindings w f binding with
      | none => rfl
      | some g =>
        have hg : g ∈ w.facts := by
          rw [hscope.boundFact_eq hown] at hbound
          exact assignmentOf_mem hbound
        cases hrhs : getField heap g field with
        | none => simp [hrhs]
        | some rhs =>
          simp only [Option.bind_some, hrhs]
          exact evaluateCompare_eq_relatesValues _ hc.comparison ((hkind c hmem).1 lhs hlhs)
            ((hkinds g hg c hmem).2 binding field rhs hright hrhs)

/-! ### Tests of nodes -/

/-- A node whose join constraints are plain. -/
def JoinCondition.Plain (kind : ParsedConstraint → ValueKind) (constraints : Set ParsedConstraint)
    (own : String) (condition : JoinCondition) : Prop :=
  ∀ c ∈ condition.joins, c.Plain kind own ∧ c.isJoin = true ∧ c ∈ constraints

variable {kb : KnowledgeBase} {base : Session} {condition : JoinCondition}
  (hplain : condition.Plain kind constraints own)
  (hkind : ReadsKind kind constraints base.heap f)
  (hkinds : ∀ g ∈ w.facts, ReadsKind kind constraints base.heap g)
  (hscope : InScope condition.bindings own w)
include hplain hkind hkinds hscope

variable (kb) in
theorem checkCondition_iff_holds :
    checkCondition kb condition base w f = true ↔ ∀ c ∈ condition.joins,
      c.holds base.heap (assignmentOf condition.bindings w.facts) f = true := by
  unfold checkCondition checkAllJoinConditions
  rw [List.all_eq_true]
  refine forall₂_congr fun c hc ↦ ?_
  obtain ⟨hcplain, hjoin, hmem⟩ := hplain c hc
  rw [checkJoin_eq_holds hcplain hjoin hmem hkind hkinds hscope]

omit hkind hkinds in
/-- Where the comparisons hold, the token and the fact have the same key. -/
theorem keys_eq_of_holds {l : String × ℕ} {r : String}
    (hkey : BetaNetworkBuilder.hashKey condition.bindings condition.joins = some (l, r))
    (hall : ∀ c ∈ condition.joins,
      c.holds base.heap (assignmentOf condition.bindings w.facts) f = true) :
    ∃ v, tokenKey base.heap l w = some v ∧ getField base.heap f r = some v := by
  obtain ⟨c, hc, binding, hop, hright, hlookup, hleft⟩ := CompiledNetwork.hashKey_mem hkey
  have hown : binding ≠ own := by
    rcases (hplain c hc).1.right with ⟨v, -, -, hnone⟩ | ⟨binding', field, hsome, hne, -, -⟩
    · rw [hright] at hnone
      cases hnone
    · rw [hright] at hsome
      cases hsome
      exact hne
  obtain ⟨g, hget, hfacts⟩ := hscope.getFactAtDepth_eq hlookup hown
  have hbound : assignmentOf condition.bindings w.facts binding = some g := by
    simp [assignmentOf, hlookup, hfacts]
  have hholds := hall c hc
  dsimp only at hright hleft
  simp only [ParsedConstraint.holds, ParsedConstraint.rightValue, hright, hbound, hop, hleft,
    Option.bind_some] at hholds
  split at hholds
  · next lhs rhs hlhs hrhs =>
    obtain rfl := CompareOp.eq_of_relatesValues hholds
    exact ⟨lhs, by simp [tokenKey, hget, hrhs], hlhs⟩
  · simp at hholds

/-- The test of a node, with its index, is the conjunction of its comparisons. -/
theorem nodeTest_iff_holds (hkeys : kb.network.KeysFromJoins) {n : ℕ}
    (hn : (kb.network.kind n).joinCondition = some condition) :
    nodeTest kb base n w f ↔ ∀ c ∈ condition.joins,
      c.holds base.heap (assignmentOf condition.bindings w.facts) f = true := by
  rw [← checkCondition_iff_holds kb hplain hkind hkinds hscope]
  have hholds := checkCondition_iff_holds kb hplain hkind hkinds hscope
  unfold nodeTest
  cases hnode : kb.network.kind n with
  | crossProductJoin c =>
    obtain rfl : c = condition := by simpa [hnode, NodeKind.joinCondition] using hn
    rfl
  | hashedJoin c l r =>
    obtain rfl : c = condition := by simpa [hnode, NodeKind.joinCondition] using hn
    refine and_iff_right_of_imp fun hcheck ↦ ?_
    obtain ⟨v, hleft, hright⟩ := keys_eq_of_holds hplain hscope (hkeys hnode) (hholds.mp hcheck)
    exact ⟨v.canonical, by simp [hashedLeftKey, hleft], by simp [hashedRightKey, hright]⟩
  | condition conditionKind c =>
    obtain rfl : c = condition := by simpa [hnode, NodeKind.joinCondition] using hn
    refine and_iff_right_of_imp fun hcheck ↦ ?_
    cases hkey : BetaNetworkBuilder.hashKey c.bindings c.joins with
    | none => simp [currentLeftKey, conditionTokenKey, hkey]
    | some key =>
      obtain ⟨v, hleft, hright⟩ := keys_eq_of_holds hplain hscope hkey (hholds.mp hcheck)
      simp [currentLeftKey, currentRightKey, conditionTokenKey, conditionFactKey, hkey, hleft,
        hright]
  | _ => simp [hnode, NodeKind.joinCondition] at hn

end Tests

end RulesForge
