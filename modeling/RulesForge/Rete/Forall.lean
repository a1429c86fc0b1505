import RulesForge.Parser.AstTransformer
import RulesForge.Rete.Partition

/-!
# The compiled form of `forall`

What the NOT node compiled from an expanded `forall(A, B1, …, Bn)` tests, and when that is
the meaning of the `forall`.

The node matches a fact when every leaf of `A` and the **negated form of every leaf** of the
restrictions hold: the OR that De Morgan puts between the negated leaves is lost with the
rest of the tree. Three things can then separate the node from the meaning. A fact may fail
one leaf of the restrictions and satisfy another; a leaf and its negated form may both fail
(a missing field, values that are not comparable); and both may hold (an operator that the
negation table maps to itself). `NegationExact` says of one fact that none of this happens.
-/

namespace RulesForge

open ConstraintNode

/-- A pattern's tree on an interpretation of its leaves; a pattern without one accepts. -/
def ParsedPattern.holds (pattern : ParsedPattern) (test : ParsedConstraint → Bool) : Bool :=
  match pattern.constraintRoot with
  | some tree => tree.eval test
  | none => true

/-- The leaves of a pattern's tree. -/
def ParsedPattern.leaves (pattern : ParsedPattern) : List ParsedConstraint :=
  match pattern.constraintRoot with
  | some tree => tree.leaves
  | none => []

/-- Every OR node of a pattern's tree has a branch. -/
def ParsedPattern.orsNonempty (pattern : ParsedPattern) : Bool :=
  match pattern.constraintRoot with
  | some tree => tree.orsNonempty
  | none => true

/-- The condition element `forall(base, restriction, restrictions…)`. -/
def forallPattern (base restriction : ParsedPattern) (restrictions : List ParsedPattern) :
    ParsedPattern :=
  { type := .forall, forallInfo := some (base :: restriction :: restrictions) }

section Tests

variable (env : RuntimeEnv) (heap : Heap) (bindings : Bindings) (inlineFields : ScalarFields)
  (token : TokenWME)

/-- Whether the node built for a NOT pattern matches a fact to a token: the fact comes
through the entry point of the nested pattern's type and passes the installed tests. -/
def notNodeMatches (pattern : ParsedPattern) (fact : FactPtr) : Bool :=
  match pattern.nestedPatterns with
  | [] => false
  | nested :: _ =>
    decide ((heap fact).type = nested.factType) &&
      (installedTests inlineFields nested.constraintRoot).accepts env heap bindings inlineFields
        token fact

/-- A fact matches the base pattern: it has its type and satisfies its tree. -/
def matchesBase (base : ParsedPattern) (fact : FactPtr) : Bool :=
  decide ((heap fact).type = base.factType) &&
    base.holds (leafTest env heap bindings inlineFields token fact)

/-- A fact satisfies every restriction. -/
def satisfiesAll (restrictions : List ParsedPattern) (fact : FactPtr) : Bool :=
  restrictions.all (·.holds (leafTest env heap bindings inlineFields token fact))

/-- **The negation is exact at a fact.** If the fact satisfies the restrictions, the negated
form of one of their leaves (or a leaf of the base) fails; if it does not, the negated form
of all of their leaves and all leaves of the base hold. -/
def NegationExact (base : ParsedPattern) (restrictions : List ParsedPattern) (fact : FactPtr) :
    Prop :=
  let test := leafTest env heap bindings inlineFields token fact
  let negatedLeaves := (restrictions.flatMap (·.leaves)).map negateConstraint
  (satisfiesAll env heap bindings inlineFields token restrictions fact = true →
      ∃ c ∈ base.leaves ++ negatedLeaves, test c = false) ∧
    (satisfiesAll env heap bindings inlineFields token restrictions fact = false →
      ∀ c ∈ base.leaves ++ negatedLeaves, test c = true)

instance (base : ParsedPattern) (restrictions : List ParsedPattern) (fact : FactPtr) :
    Decidable (NegationExact env heap bindings inlineFields token base restrictions fact) := by
  unfold NegationExact
  infer_instance

end Tests

/-! ### What the NOT node tests -/

theorem expandForallsInList_forallPattern (base restriction : ParsedPattern)
    (restrictions : List ParsedPattern) :
    expandForallsInList [forallPattern base restriction restrictions] =
      [{ type := .not, nestedPatterns := [violatingPattern base (restriction :: restrictions)] }] :=
  rfl

theorem mem_flatMap_leaves {patterns : List ParsedPattern} {c : ParsedConstraint} :
    c ∈ patterns.flatMap (·.leaves) ↔
      ∃ pattern ∈ patterns, ∃ root, pattern.constraintRoot = some root ∧ c ∈ root.leaves := by
  simp only [List.mem_flatMap, ParsedPattern.leaves]
  refine exists_congr fun pattern ↦ and_congr_right fun _ ↦ ?_
  cases pattern.constraintRoot <;> simp

section Tests

variable {env : RuntimeEnv} {heap : Heap} {bindings : Bindings} {inlineFields : ScalarFields}
  {token : TokenWME}

variable {restrictions : List ParsedPattern}

/-- The installed tests of the violating pattern, leaf by leaf. -/
theorem accepts_violatingPattern_iff {base : ParsedPattern}
    {fact : FactPtr} :
    (installedTests inlineFields (violatingPattern base restrictions).constraintRoot).accepts
        env heap bindings inlineFields token fact = true ↔
      ∀ c ∈ base.leaves ++ (restrictions.flatMap (·.leaves)).map negateConstraint,
        leafTest env heap bindings inlineFields token fact c = true := by
  obtain ⟨tree, htree⟩ : ∃ tree, (violatingPattern base restrictions).constraintRoot = some tree :=
    by cases h : base.constraintRoot <;> simp [violatingPattern, h]
  rw [htree, accepts_installedTests_iff]
  refine forall_congr' fun c ↦ imp_congr_left ?_
  rw [mem_leaves_violatingPattern htree, List.mem_append, List.mem_map]
  refine or_congr ?_ (exists_congr fun b ↦ and_congr_left fun _ ↦ ?_)
  · cases h : base.constraintRoot <;> simp [ParsedPattern.leaves, h]
  · rw [leaves_restrictionsRoot, mem_flatMap_leaves]

/-- The NOT node of an expanded `forall` only matches facts that match the base. -/
theorem matchesBase_of_accepts {base : ParsedPattern}
    {fact : FactPtr} (hors : base.orsNonempty = true)
    (htype : (heap fact).type = base.factType)
    (h : (installedTests inlineFields (violatingPattern base restrictions).constraintRoot).accepts
      env heap bindings inlineFields token fact = true) :
    matchesBase env heap bindings inlineFields token base fact = true := by
  have hleaves := accepts_violatingPattern_iff.mp h
  simp only [matchesBase, htype, decide_true, Bool.true_and, ParsedPattern.holds]
  cases hroot : base.constraintRoot with
  | none => rfl
  | some tree =>
    refine eval_of_forall_leaves (by simpa [ParsedPattern.orsNonempty, hroot] using hors) ?_
    intro c hc
    exact hleaves c (List.mem_append_left _ (by simpa [ParsedPattern.leaves, hroot] using hc))

/-- At a fact that matches the base, the node tells violations apart exactly when the
negation is exact there. -/
theorem accepts_violatingPattern_exact_iff {base : ParsedPattern} {fact : FactPtr} :
    ((installedTests inlineFields (violatingPattern base restrictions).constraintRoot).accepts
        env heap bindings inlineFields token fact = true ↔
      ¬ satisfiesAll env heap bindings inlineFields token restrictions fact = true) ↔
    NegationExact env heap bindings inlineFields token base restrictions fact := by
  rw [accepts_violatingPattern_iff]
  simp only [NegationExact]
  cases satisfiesAll env heap bindings inlineFields token restrictions fact with
  | true => simp
  | false => simp

/-- **When the expansion of `forall` is exact.** The compiled NOT pattern matches, among the
facts that match the base, exactly those that violate a restriction if and only if the
negation is exact at each of them; and then the pattern list is satisfied by a working
memory exactly when every fact that matches the base satisfies every restriction. -/
theorem forall_expansion_exact_iff (env : RuntimeEnv) (heap : Heap) (bindings : Bindings)
    (inlineFields : ScalarFields) (token : TokenWME) (base restriction : ParsedPattern)
    (restrictions : List ParsedPattern) (workingMemory : List FactPtr)
    (hors : base.orsNonempty = true) :
    ((∀ fact ∈ workingMemory, matchesBase env heap bindings inlineFields token base fact = true →
        ((∃ pattern ∈ expandForallsInList [forallPattern base restriction restrictions],
            notNodeMatches env heap bindings inlineFields token pattern fact = true) ↔
          ¬ satisfiesAll env heap bindings inlineFields token (restriction :: restrictions) fact
            = true)) ↔
      ∀ fact ∈ workingMemory, matchesBase env heap bindings inlineFields token base fact = true →
        NegationExact env heap bindings inlineFields token base (restriction :: restrictions)
          fact) ∧
    ((∀ fact ∈ workingMemory, matchesBase env heap bindings inlineFields token base fact = true →
        NegationExact env heap bindings inlineFields token base (restriction :: restrictions)
          fact) →
      ((∀ pattern ∈ expandForallsInList [forallPattern base restriction restrictions],
          ∀ fact ∈ workingMemory,
            notNodeMatches env heap bindings inlineFields token pattern fact = false) ↔
        ∀ fact ∈ workingMemory, matchesBase env heap bindings inlineFields token base fact = true →
          satisfiesAll env heap bindings inlineFields token (restriction :: restrictions) fact
            = true)) := by
  have hmatch : ∀ fact, matchesBase env heap bindings inlineFields token base fact = true →
      ((∃ pattern ∈ expandForallsInList [forallPattern base restriction restrictions],
          notNodeMatches env heap bindings inlineFields token pattern fact = true) ↔
        (installedTests inlineFields
          (violatingPattern base (restriction :: restrictions)).constraintRoot).accepts env heap
            bindings inlineFields token fact = true) := by
    intro fact hbase
    have htype : (heap fact).type = base.factType := by
      simp only [matchesBase, Bool.and_eq_true, decide_eq_true_eq] at hbase
      exact hbase.1
    simp [expandForallsInList_forallPattern, notNodeMatches, violatingPattern, htype]
  have hexact : ∀ fact, matchesBase env heap bindings inlineFields token base fact = true →
      (((∃ pattern ∈ expandForallsInList [forallPattern base restriction restrictions],
          notNodeMatches env heap bindings inlineFields token pattern fact = true) ↔
        ¬ satisfiesAll env heap bindings inlineFields token (restriction :: restrictions) fact
          = true) ↔
      NegationExact env heap bindings inlineFields token base (restriction :: restrictions)
        fact) := by
    intro fact hbase
    rw [hmatch fact hbase]
    exact accepts_violatingPattern_exact_iff
  refine ⟨forall₂_congr fun fact _ ↦ imp_congr_right (hexact fact), fun hall ↦ ?_⟩
  constructor
  · intro hnone fact hfact hbase
    by_contra hviolates
    obtain ⟨pattern, hpattern, hnode⟩ :=
      ((hexact fact hbase).mpr (hall fact hfact hbase)).mpr hviolates
    rw [hnone pattern hpattern fact hfact] at hnode
    exact Bool.false_ne_true hnode
  · intro hsat pattern hpattern fact hfact
    by_contra hnode
    rw [Bool.not_eq_false] at hnode
    -- a fact the node matches has the base's type and passes its tests, so it matches the base
    have hbase : matchesBase env heap bindings inlineFields token base fact = true := by
      rw [expandForallsInList_forallPattern, List.mem_singleton] at hpattern
      subst hpattern
      simp only [notNodeMatches, Bool.and_eq_true, decide_eq_true_eq] at hnode
      exact matchesBase_of_accepts hors hnode.1 hnode.2
    exact ((hexact fact hbase).mpr (hall fact hfact hbase)).mp ⟨pattern, hpattern, hnode⟩
      (hsat fact hfact hbase)

/-! ### Leaves with a complement -/

/-- **The leaf compares with a literal**: by one of the six operators that the negation table
maps to their complements, a field that the fact has with a literal it is comparable with. -/
def ParsedConstraint.Decides (heap : Heap) (fact : FactPtr) (c : ParsedConstraint) : Prop :=
  c.isJoin = false ∧ c.rightArithExpr = none ∧ c.op.IsComparison ∧
    ∃ lhs rhs, alphaField heap fact c.leftField = some lhs ∧ c.rightLiteral = some rhs ∧
      comparable lhs rhs = true

/-- Such a leaf and its negated form are complements. -/
theorem leafTest_negate {c : ParsedConstraint} {fact : FactPtr} (h : c.Decides heap fact) :
    leafTest env heap bindings inlineFields token fact (negateConstraint c) =
      !leafTest env heap bindings inlineFields token fact c := by
  obtain ⟨hjoin, hexpr, hop, lhs, rhs, hlhs, hrhs, hcomp⟩ := h
  have hnone : c.op ≠ .none := by
    intro h
    rw [h] at hop
    exact hop
  have hjoin' : (negateConstraint c).isJoin = false := by
    simpa [negateConstraint, hnone, ParsedConstraint.isJoin] using hjoin
  rw [leafTest, leafTest, hjoin, hjoin']
  simp [checkConstraint, alphaRightValue, negateConstraint, hnone, hexpr, hlhs, hrhs,
    evaluateCompare_negate _ hop hcomp]

/-- **What is left of the condition** where every leaf of the restrictions compares with a
literal: a fact that violates a restriction fails all their leaves, and one that satisfies them
satisfies a leaf of theirs. With a single leaf both are so at every fact that matches the base. -/
theorem negationExact_iff_of_decides {base : ParsedPattern}
    {fact : FactPtr} (hdecides : ∀ c ∈ restrictions.flatMap (·.leaves), c.Decides heap fact) :
    let test := leafTest env heap bindings inlineFields token fact
    NegationExact env heap bindings inlineFields token base restrictions fact ↔
      (satisfiesAll env heap bindings inlineFields token restrictions fact = true →
        (∃ a ∈ base.leaves, test a = false) ∨
          ∃ c ∈ restrictions.flatMap (·.leaves), test c = true) ∧
      (satisfiesAll env heap bindings inlineFields token restrictions fact = false →
        (∀ a ∈ base.leaves, test a = true) ∧
          ∀ c ∈ restrictions.flatMap (·.leaves), test c = false) := by
  have hnegated : ∀ value : Bool, ∀ c ∈ restrictions.flatMap (·.leaves),
      leafTest env heap bindings inlineFields token fact (negateConstraint c) = value ↔
        leafTest env heap bindings inlineFields token fact c = !value := by
    intro value c hc
    rw [leafTest_negate (hdecides c hc)]
    exact Bool.not_eq_eq_eq_not
  simp only [NegationExact, List.mem_append, or_and_right, exists_or, or_imp, forall_and,
    List.mem_map, exists_exists_and_eq_and, forall_exists_index, and_imp, forall_apply_eq_imp_iff₂]
  refine and_congr (imp_congr_right fun _ ↦ or_congr_right ?_)
    (and_congr_right fun _ ↦ imp_congr_right fun _ ↦ ?_)
  · exact exists_congr fun c ↦ and_congr_right (hnegated false c)
  · exact forall₂_congr (hnegated true)

end Tests

/-! ### A restriction that is negated exactly, and three that are not -/

/-- The pattern `Order(tree)`. -/
def orderPattern (tree : ConstraintNode) : ParsedPattern :=
  { factType := "Order", constraintRoot := some tree }

/-- One order, at address `1`, with `status = "ok"` and `total = 5`. -/
def orderHeap : Heap := fun _ ↦
  { id := 1, type := "Order", fields := [("status", .string "ok"), ("total", .int64 5)] }

/-- The leaf `field op value`. -/
def fieldTest (field : String) (op : CompareOp) (value : ConstraintValue) : ConstraintNode :=
  .leaf { leftField := field, op := op, rightLiteral := some value }

/-- `Order(status == "ok" || total > 1)`, as the grammar builds it. -/
def okOrLarge : ParsedPattern :=
  orderPattern (parseConstraintExpr
    ({ leftField := "status", op := .eq, rightLiteral := some (.string "ok") }, [])
    [({ leftField := "total", op := .gt, rightLiteral := some (.int64 1) }, [])])

/-- On `forall(Order(status == "ok" || total > 1), Order(total > 3))` the expansion is exact. -/
theorem forall_expansion_exact_single :
    okOrLarge.orsNonempty = true ∧
    ((∀ pattern ∈ expandForallsInList
        [forallPattern okOrLarge (orderPattern (fieldTest "total" .gt (.int64 3))) []],
        ∀ fact ∈ [1], notNodeMatches noExpressions orderHeap [] [] .root pattern fact = false) ↔
      ∀ fact ∈ [1], matchesBase noExpressions orderHeap [] [] .root okOrLarge fact = true →
        satisfiesAll noExpressions orderHeap [] [] .root
          [orderPattern (fieldTest "total" .gt (.int64 3))] fact = true) := by
  have hors : okOrLarge.orsNonempty = true := orsNonempty_parseConstraintExpr _ _
  refine ⟨hors, (forall_expansion_exact_iff noExpressions orderHeap [] [] .root okOrLarge
    (orderPattern (fieldTest "total" .gt (.int64 3))) [] [1] hors).2 fun fact hfact _ ↦ ?_⟩
  obtain rfl := List.mem_singleton.mp hfact
  have hdecides : ∀ c ∈ [orderPattern (fieldTest "total" .gt (.int64 3))].flatMap (·.leaves),
      c.Decides orderHeap 1 := by
    intro c hc
    obtain rfl := List.mem_singleton.mp hc
    exact ⟨rfl, rfl, trivial, .int64 5, .int64 3, rfl, rfl, rfl⟩
  exact (negationExact_iff_of_decides hdecides).mpr ⟨by decide, by decide⟩

/-- On the order above, `forall(Order(), Order(status == "bad" && total > 3))` is violated and
the NOT node finds no violation, `forall(Order(), Order(missing == 1))` likewise, and
`forall(Order(), Order(status contains "ok"))` holds and the NOT node finds a violation. -/
theorem forall_expansion_not_exact :
    (satisfiesAll noExpressions orderHeap [] [] .root
        [orderPattern (.and [fieldTest "status" .eq (.string "bad"), fieldTest "total" .gt (.int64 3)])]
        1 = false ∧
      ∀ pattern ∈ expandForallsInList [forallPattern { factType := "Order" }
          (orderPattern (.and [fieldTest "status" .eq (.string "bad"),
            fieldTest "total" .gt (.int64 3)])) []],
        notNodeMatches noExpressions orderHeap [] [] .root pattern 1 = false) ∧
    (satisfiesAll noExpressions orderHeap [] [] .root
        [orderPattern (fieldTest "missing" .eq (.int64 1))] 1 = false ∧
      ∀ pattern ∈ expandForallsInList [forallPattern { factType := "Order" }
          (orderPattern (fieldTest "missing" .eq (.int64 1))) []],
        notNodeMatches noExpressions orderHeap [] [] .root pattern 1 = false) ∧
    (satisfiesAll noExpressions orderHeap [] [] .root
        [orderPattern (fieldTest "status" .contains (.string "ok"))] 1 = true ∧
      ∀ pattern ∈ expandForallsInList [forallPattern { factType := "Order" }
          (orderPattern (fieldTest "status" .contains (.string "ok"))) []],
        notNodeMatches noExpressions orderHeap [] [] .root pattern 1 = true) := by
  decide

end RulesForge
