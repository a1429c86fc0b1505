import RulesForge.Engine.LeafScope
import RulesForge.Rete.Delivered
import RulesForge.Rete.Window

/-!
# Nested condition elements

The grammar accepts any pattern inside of a `not(…)` or an `exists(…)`, and
`create_node_for_pattern` (`src/rete/beta_builder.cpp`) builds one condition node for it, with the
right side that `RightInput` is. A nested `not`, `exists`, `forall`, `eval` or query call has no fact
type: its node has no facts on its right, and holds as if the element were never satisfied. A nested
pattern that takes its facts from an accumulate or an unnest source reads working memory instead.
The names that a nested pattern binds to its own fact are never taken up, so a comparison with
one of them fails.

`createCondition_exact_iff` says where this agrees with the logical reading of the element, in which
a pattern's own names stand for its fact.
-/

namespace RulesForge

/-! ### Elements -/

/-- What a pattern that reads facts says of them. -/
structure PatternHead where
  binding : String := ""
  factType : String
  constraintRoot : Option ConstraintNode := none
  windowInfo : Option ParsedWindow := none

/-- A pattern inside of a `not` or an `exists`. -/
inductive NestedPattern where
  | standard (head : PatternHead) (entryPoint : Option String)
  | accumulate (head : PatternHead) (function field : String) (source : NestedPattern)
  | unnest (head : PatternHead) (source : ParsedUnnest)
  | not (nested : NestedPattern)
  | exists (nested : NestedPattern)
  | forall (patterns : List NestedPattern)
  | eval (expression : String)
  | queryCall (call : ParsedQueryCall)

namespace PatternHead

variable (head : PatternHead)

/-- The element whose names are the pattern's. -/
def element : ConditionElement where
  binding := head.binding
  factType := head.factType
  constraintRoot := head.constraintRoot

def leaves : List ParsedConstraint := head.element.leaves

def ownNames : List String := head.element.ownNames

end PatternHead

namespace NestedPattern

def head : NestedPattern → Option PatternHead
  | standard head _ | accumulate head _ _ _ | unnest head _ => some head
  | _ => none

/-- The parts of a nested pattern that the builder reads. Only a name in its source makes another
entry point than the default one. -/
def pattern : NestedPattern → FactPattern
  | standard head entryPoint =>
    ⟨head.factType, entryPoint, head.constraintRoot, head.windowInfo⟩
  | accumulate head _ _ _ | unnest head _ =>
    ⟨head.factType, none, head.constraintRoot, head.windowInfo⟩
  | _ => { factType := "" }

end NestedPattern

/-- The element of a NOT or an EXISTS. -/
def ConditionKind.element (kind : ConditionKind) (nested : FactPattern) : ConditionElement where
  kind :=
    match kind with
    | .not => .not (some nested)
    | .exists => .exists (some nested)

/-! ### Situations -/

/-- A token and a working memory: the facts of each entry point in the order they came in, the
clocks of windows, and what other sources give a token, where the names in scope are those of a
builder. -/
structure Situation extends WindowReadings where
  library : NumberLibrary
  token : TokenWME
  facts : Option String → List FactPtr
  accumulated : ChainBuilder → TokenWME → String → String → NestedPattern → List FactPtr :=
    fun _ _ _ _ _ ↦ []
  unnested : ChainBuilder → TokenWME → ParsedUnnest → List FactPtr := fun _ _ _ ↦ []
  evalHolds : ChainBuilder → TokenWME → String → Bool := fun _ _ _ ↦ false
  hasRow : ChainBuilder → TokenWME → ParsedQueryCall → Bool := fun _ _ _ ↦ false

namespace Situation

variable (S : Situation)

/-- What a window that the facts have come to one after the other holds. -/
def windowed (window : Option ParsedWindow) (facts : List FactPtr) : List FactPtr :=
  match window with
  | none => facts
  | some info =>
    facts.foldl (fun held f ↦
      (WindowNode.rightActivate ⟨info⟩ S.toWindowReadings f .assert held).1) []

/-- The facts at an entry point; an empty name is that of the default one. -/
def factsAt (entryPoint : Option String) : List FactPtr :=
  S.facts (entryPoint.filter (· ≠ ""))

/-- The test of a leaf on a token and a fact, with the names of a builder in scope. -/
def leafTest (b : ChainBuilder) (token : TokenWME) (f : FactPtr) (c : ParsedConstraint) : Bool :=
  RulesForge.leafTest (reteEnv S.library) S.heap b.bindingToIdx b.inlineBindingToField token f c

end Situation

/-! ### The node -/

section Node

variable (S : Situation) (b : ChainBuilder)

/-- A fact comes through the alpha nodes of a type. -/
def RightInput.passesAlphas (input : RightInput) (f : FactPtr) : Bool :=
  decide ((S.heap f).type = input.factType) &&
    input.tests.alphas.all (checkConstraint (reteEnv S.library) S.heap · f)

/-- Whether a fact matches the token in the node that is built: it has come through the alpha nodes
and the window, and passes the join conditions. -/
def ChainBuilder.hasMatch (nested : FactPattern) : Bool :=
  match b.rightInput nested with
  | none => false
  | some input =>
    (S.windowed input.window ((S.factsAt input.source).filter (input.passesAlphas S))).any fun f ↦
      checkAllJoinConditions (reteEnv S.library) S.heap b.bindingToIdx b.inlineBindingToField
        S.token f input.tests.joins

end Node

/-! ### The logical reading -/

/-- A leaf is about the fact alone: it is no join condition, or compares with fields of the
pattern's own names only. -/
def ParsedConstraint.isAbout (c : ParsedConstraint) (own : List String) : Bool :=
  !c.isJoin || (c.rightArithExpr.isNone && c.boundNames.all (own.contains ·))

section Readings

variable (S : Situation)

namespace PatternHead

variable (head : PatternHead) (b : ChainBuilder) (token : TokenWME) (f : FactPtr)

/-- The scope of a pattern's constraints: its own names stand for its fact. -/
def scope : ChainBuilder := b.bindPattern head.element

/-- The test of a leaf that is about the fact alone; what the others say is left open. -/
def aboutTest (c : ParsedConstraint) : Bool :=
  !c.isAbout head.ownNames || S.leafTest (head.scope b) token f c

/-- A fact has the type, and the constraints that are about it alone do not rule it out. -/
def admits : Bool :=
  decide ((S.heap f).type = head.factType) &&
    head.constraintRoot.elim true (·.eval (head.aboutTest S b token f))

/-- A fact has the type and satisfies the constraints. -/
def satisfies : Bool :=
  decide ((S.heap f).type = head.factType) &&
    head.constraintRoot.elim true (·.eval (S.leafTest (head.scope b) token f))

/-- The facts of a source that a pattern matches. A window is one over the facts that the
constraints about them alone allow. -/
def matched (source : List FactPtr) : List FactPtr :=
  (S.windowed head.windowInfo (source.filter (head.admits S b token))).filter
    (head.satisfies S b token)

end PatternHead

namespace NestedPattern

/-- The facts that a pattern matches, with the names of a builder in scope. -/
def matched (b : ChainBuilder) (token : TokenWME) : NestedPattern → List FactPtr
  | standard head entryPoint => head.matched S b token (S.factsAt entryPoint)
  | accumulate head function field source =>
    head.matched S b token (S.accumulated b token function field source)
  | unnest head source => head.matched S b token (S.unnested b token source)
  | _ => []

/-- The scope behind a pattern, whose fact the token has at its end. -/
def behind (b : ChainBuilder) (nested : NestedPattern) : ChainBuilder :=
  let b := nested.head.elim b (·.scope b)
  { b with patternDepth := b.patternDepth + 1 }

mutual

/-- **The logical reading** of an element. -/
def holds (b : ChainBuilder) (token : TokenWME) : NestedPattern → Bool
  | standard head entryPoint => (head.matched S b token (S.factsAt entryPoint)) != []
  | accumulate head function field source =>
    (head.matched S b token (S.accumulated b token function field source)) != []
  | unnest head source => (head.matched S b token (S.unnested b token source)) != []
  | not nested => !nested.holds b token
  | «exists» nested => nested.holds b token
  | «forall» [] => true
  | «forall» (base :: restrictions) =>
    (base.matched S b token).all fun f ↦
      allHoldAt (base.behind b) (.mk 0 token f) token f restrictions
  | eval expression => S.evalHolds b token expression
  | queryCall call => S.hasRow b token call

/-- A restriction of a `forall` is about the fact that the first pattern matched, which stands at
the end of the token for the elements nested in it. -/
def holdsAt (b : ChainBuilder) (inner token : TokenWME) (f : FactPtr) : NestedPattern → Bool
  | standard head _ | accumulate head _ _ _ | unnest head _ =>
    head.constraintRoot.elim true (·.eval (S.leafTest (head.scope b) token f))
  | not nested => !nested.holds b inner
  | «exists» nested => nested.holds b inner
  | «forall» [] => true
  | «forall» (base :: restrictions) =>
    (base.matched S b inner).all fun g ↦
      allHoldAt (base.behind b) (.mk 0 inner g) inner g restrictions
  | eval expression => S.evalHolds b inner expression
  | queryCall call => S.hasRow b inner call

def allHoldAt (b : ChainBuilder) (inner token : TokenWME) (f : FactPtr) :
    List NestedPattern → Bool
  | [] => true
  | restriction :: restrictions =>
    restriction.holdsAt b inner token f && allHoldAt b inner token f restrictions

end

end NestedPattern

end Readings

/-! ### What the node lets through -/

section Leaves

variable {S : Situation} {b : ChainBuilder} {head : PatternHead} {token : TokenWME} {f : FactPtr}

/-- No OR node of a tree has a branch that rejects. -/
def KeepsBranches (root : Option ConstraintNode) (test : ParsedConstraint → Bool) : Prop :=
  ∀ tree ∈ root, tree.hasRejectedOrBranch test = false

/-- Every leaf of a tree is passed exactly if the tree is satisfied and no branch rejects. -/
theorem forall_leaves_iff {root : Option ConstraintNode} {test : ParsedConstraint → Bool}
    (hors : root.elim true (·.orsNonempty) = true) :
    (∀ c ∈ root.elim [] (·.leaves), test c = true) ↔
      root.elim true (·.eval test) = true ∧ KeepsBranches root test := by
  cases root with
  | none => simp [KeepsBranches]
  | some tree =>
    constructor
    · intro hleaves
      refine ⟨ConstraintNode.eval_of_forall_leaves hors hleaves, ?_⟩
      rintro _ ⟨⟩
      exact ConstraintNode.hasRejectedOrBranch_of_forall_leaves hors hleaves
    · rintro ⟨heval, hkeep⟩
      exact ConstraintNode.forall_leaves_of_eval heval (hkeep tree rfl)

/-- A tree that is satisfied stays so when its leaves say less. -/
theorem ConstraintNode.eval_mono {test test' : ParsedConstraint → Bool}
    (h : ∀ c, test c = true → test' c = true) {tree : ConstraintNode}
    (heval : tree.eval test = true) : tree.eval test' = true := by
  induction tree using ConstraintNode.induction with
  | leaf c => exact h c heval
  | and children ih =>
    exact ConstraintNode.eval_and.mpr fun child hc ↦
      ih child hc (ConstraintNode.eval_and.mp heval child hc)
  | or children ih =>
    obtain ⟨child, hc, hchild⟩ := ConstraintNode.eval_or.mp heval
    exact ConstraintNode.eval_or.mpr ⟨child, hc, ih child hc hchild⟩

/-- What stays in a window has come to it. -/
theorem Situation.mem_of_mem_windowed {window : Option ParsedWindow} {facts : List FactPtr}
    (h : f ∈ S.windowed window facts) : f ∈ facts := by
  cases window with
  | none => exact h
  | some info =>
    have hrun : ∀ held : List FactPtr, f ∈ facts.foldl (fun held g ↦
        (WindowNode.rightActivate ⟨info⟩ S.toWindowReadings g .assert held).1) held →
        f ∈ held ∨ f ∈ facts := by
      clear h
      induction facts with
      | nil => exact fun held h ↦ .inl h
      | cons g facts ih =>
        intro held h
        rcases ih _ h with hheld | hlater
        · have hstay : f ∈ WindowNode.remaining ⟨info⟩ S.toWindowReadings
              (WindowNode.insertFact ⟨info⟩ S.toWindowReadings g held) := by
            rw [← WindowNode.evaluateExpiration_fst]
            exact hheld
          have hinsert := (WindowNode.insertFact_perm ⟨info⟩ S.toWindowReadings held g).mem_iff.mp
            ((WindowNode.remaining_sublist ⟨info⟩ S.toWindowReadings _).subset hstay)
          rcases List.mem_cons.mp hinsert with rfl | hold
          · exact .inr List.mem_cons_self
          · exact .inl hold
        · exact .inr (List.mem_cons_of_mem _ hlater)
    exact (hrun [] h).resolve_left List.not_mem_nil

namespace PatternHead

/-- Some constraint compares with a field of one of the pattern's own names. -/
def ReadsOwn (head : PatternHead) : Prop := ∃ c ∈ head.leaves, c.ReadsBinding head.ownNames

/-- No expression of a join condition asks for one of the pattern's own names. -/
def PlainExpressions (head : PatternHead) : Prop :=
  ∀ c ∈ head.leaves, ¬ c.ReadsInExpression head.ownNames

/-- The right side that the node gets for a pattern. -/
def input (b : ChainBuilder) (head : PatternHead) (entryPoint : Option String) : RightInput :=
  ⟨entryPoint, head.factType, installedTests b.inlineBindingToField head.constraintRoot,
    head.windowInfo⟩

theorem passesAlphas_iff (b : ChainBuilder) (entryPoint : Option String) :
    (head.input b entryPoint).passesAlphas S f = true ↔
      (S.heap f).type = head.factType ∧ ∀ c ∈ head.leaves, c.isJoin = false →
        checkConstraint (reteEnv S.library) S.heap c f = true := by
  rw [RightInput.passesAlphas, input, installedTests_eq]
  simp only [Bool.and_eq_true, decide_eq_true_eq, List.all_eq_true, List.mem_filter,
    Bool.not_eq_true', and_imp]
  exact Iff.rfl

/-- A fact that comes through the alpha nodes and passes the join conditions passes every leaf, and
the other way round. -/
theorem accepts_iff (b : ChainBuilder) (entryPoint : Option String) :
    ((head.input b entryPoint).passesAlphas S f = true ∧
      checkAllJoinConditions (reteEnv S.library) S.heap b.bindingToIdx b.inlineBindingToField token f
        (head.input b entryPoint).tests.joins = true) ↔
      (S.heap f).type = head.factType ∧ ∀ c ∈ head.leaves, S.leafTest b token f c = true := by
  rw [passesAlphas_iff, and_assoc]
  refine and_congr_right fun _ ↦ ?_
  rw [input, installedTests_eq, checkAllJoinConditions, List.all_map, List.all_eq_true]
  simp only [List.mem_filter, and_imp, Function.comp_apply]
  constructor
  · rintro ⟨halpha, hjoin⟩ c hc
    unfold Situation.leafTest RulesForge.leafTest
    by_cases h : c.isJoin = true
    · rw [if_pos h]
      exact hjoin c hc h
    · rw [if_neg h]
      exact halpha c hc (Bool.eq_false_iff.mpr h)
  · intro hall
    refine ⟨fun c hc h ↦ ?_, fun c hc h ↦ ?_⟩
    · have htest := hall c hc
      rwa [Situation.leafTest, RulesForge.leafTest, if_neg (Bool.eq_false_iff.mp h)] at htest
    · have htest := hall c hc
      rwa [Situation.leafTest, RulesForge.leafTest, if_pos h] at htest

/-- **The names of the pattern in scope and not**: a fact passes every leaf without them exactly if
it does with them and no leaf compares with one of them. -/
theorem forall_leaves_scope_iff (hplain : head.PlainExpressions)
    (hfresh : ∀ name ∈ head.ownNames, b.bindingToIdx.lookup name = none) :
    (∀ c ∈ head.leaves, S.leafTest b token f c = true) ↔
      ¬ head.ReadsOwn ∧ ∀ c ∈ head.leaves, S.leafTest (head.scope b) token f c = true := by
  have hsame : ¬ head.ReadsOwn → ∀ c ∈ head.leaves,
      S.leafTest (head.scope b) token f c = S.leafTest b token f c :=
    fun hown c hc ↦ leafTest_congr (b.agreeOff_bindPattern head.element)
      (fun hreads ↦ hown ⟨c, hc, hreads⟩) (hplain c hc)
  constructor
  · intro hall
    have hown : ¬ head.ReadsOwn := by
      rintro ⟨c, hc, hreads⟩
      exact Bool.noConfusion ((leafTest_of_unbound hfresh hreads).symm.trans (hall c hc))
    exact ⟨hown, fun c hc ↦ (hsame hown c hc).trans (hall c hc)⟩
  · exact fun ⟨hown, hall⟩ c hc ↦ (hsame hown c hc).symm.trans (hall c hc)

theorem satisfies_iff : head.satisfies S b token f = true ↔
    (S.heap f).type = head.factType ∧
      head.constraintRoot.elim true (·.eval (S.leafTest (head.scope b) token f)) = true := by
  rw [satisfies, Bool.and_eq_true, decide_eq_true_eq]

end PatternHead

end Leaves

/-! ### Exact elements -/

section Exact

variable (b : ChainBuilder) (S : Situation)

/-- The window of a pattern gets the facts it is meant to: no branch of an OR is rejected by what
is said about a fact alone that is not ruled out by it. -/
def PatternHead.FeedsWindow (head : PatternHead) (source : List FactPtr) : Prop :=
  head.windowInfo ≠ none → ¬ head.ReadsOwn → ∀ f ∈ source, head.admits S b S.token f = true →
    KeepsBranches head.constraintRoot (head.aboutTest S b S.token f)

/-- **When the node of a nested element is exact.** For a pattern that reads an entry point: if it
matches a fact, then it compares nothing with a field of its own names, and matches a fact that no
branch of an OR rejects; and its window gets the facts it is meant to. For one with another source:
no fact satisfies it. For the others: they do not hold. -/
def NestedPattern.IsExact : NestedPattern → Prop
  | .standard head entryPoint =>
    head.PlainExpressions ∧ head.FeedsWindow b S (S.factsAt entryPoint) ∧
      (head.matched S b S.token (S.factsAt entryPoint) ≠ [] →
        ¬ head.ReadsOwn ∧ ∃ f ∈ head.matched S b S.token (S.factsAt entryPoint),
          KeepsBranches head.constraintRoot (S.leafTest (head.scope b) S.token f))
  | .accumulate head _ _ _ | .unnest head _ =>
    head.PlainExpressions ∧ ∀ f, head.satisfies S b S.token f = false
  | nested => nested.holds S b S.token = false

/-- The condition of an element is the logical one. -/
def NestedPattern.Agrees (kind : ConditionKind) (nested : NestedPattern) : Prop :=
  kind.Holds (b.hasMatch S nested.pattern = true) ↔
    kind.Holds (nested.holds S b S.token = true)

end Exact

section Match

variable {b : ChainBuilder} {S : Situation} {head : PatternHead} {entryPoint : Option String}
  {source : List FactPtr}

theorem NestedPattern.agrees_iff {kind : ConditionKind} {nested : NestedPattern} :
    nested.Agrees b S kind ↔
      (b.hasMatch S nested.pattern = true ↔ nested.holds S b S.token = true) := by
  cases kind with
  | not => exact not_iff_not
  | «exists» => exact Iff.rfl

theorem ChainBuilder.hasMatch_of_untyped {nested : FactPattern} (htype : nested.factType = "") :
    b.hasMatch S nested = false := by
  have hinput : b.rightInput nested = none := if_pos htype
  rw [hasMatch, hinput]

/-- The facts that a node with a pattern's input matches. -/
theorem PatternHead.hasMatch_iff (htype : head.factType ≠ "") :
    b.hasMatch S ⟨head.factType, entryPoint, head.constraintRoot, head.windowInfo⟩ = true ↔
      ∃ f ∈ S.windowed head.windowInfo
          ((S.factsAt entryPoint).filter ((head.input b entryPoint).passesAlphas S)),
        (S.heap f).type = head.factType ∧ ∀ c ∈ head.leaves, S.leafTest b S.token f c = true := by
  have hinput : b.rightInput ⟨head.factType, entryPoint, head.constraintRoot, head.windowInfo⟩ =
      some (head.input b entryPoint) := if_neg htype
  rw [ChainBuilder.hasMatch, hinput]
  refine List.any_eq_true.trans (exists_congr fun f ↦ and_congr_right fun hf ↦ ?_)
  have hpasses := (List.mem_filter.mp (S.mem_of_mem_windowed hf)).2
  exact (and_iff_right hpasses).symm.trans (head.accepts_iff b entryPoint)

/-- Without a comparison with an own name a leaf is about the fact alone when it is no join
condition. -/
theorem PatternHead.aboutTest_eq (hown : ¬ head.ReadsOwn) {f : FactPtr} {c : ParsedConstraint}
    (hc : c ∈ head.leaves) :
    head.aboutTest S b S.token f c =
      (c.isJoin || checkConstraint (reteEnv S.library) S.heap c f) := by
  rw [PatternHead.aboutTest, ParsedConstraint.isAbout]
  by_cases hjoin : c.isJoin = true
  · have hnot : (c.rightArithExpr.isNone && c.boundNames.all (head.ownNames.contains ·)) = false := by
      refine Bool.eq_false_iff.mpr fun h ↦ hown ⟨c, hc, hjoin, ?_⟩
      obtain ⟨hexpression, hall⟩ := Bool.and_eq_true_iff.mp h
      have hread : ∃ name, name ∈ c.boundNames := by
        unfold ParsedConstraint.boundNames
        rw [ParsedConstraint.isJoin, Option.isNone_iff_eq_none.mp hexpression] at hjoin
        cases htemporal : c.temporalConstraint with
        | some tc => exact ⟨_, List.mem_singleton_self _⟩
        | none =>
          cases hright : c.rightBoundField with
          | some bound => exact ⟨bound.1, by simp⟩
          | none => simp [htemporal, hright] at hjoin
      obtain ⟨name, hname⟩ := hread
      exact ⟨name, hname, List.contains_iff_mem.mp (List.all_eq_true.mp hall name hname)⟩
    rw [hjoin, hnot]
    rfl
  · have hnot : c.isJoin = false := Bool.eq_false_iff.mpr hjoin
    rw [hnot, Situation.leafTest, RulesForge.leafTest, if_neg hjoin]
    rfl

/-- What is said about a fact alone is passed exactly by the facts that come through the alpha
nodes. -/
theorem PatternHead.forall_aboutTest_iff (hown : ¬ head.ReadsOwn) {f : FactPtr} :
    (∀ c ∈ head.leaves, head.aboutTest S b S.token f c = true) ↔
      ∀ c ∈ head.leaves, c.isJoin = false →
        checkConstraint (reteEnv S.library) S.heap c f = true := by
  refine forall₂_congr fun c hc ↦ ?_
  rw [PatternHead.aboutTest_eq hown hc]
  cases c.isJoin <;> simp

variable (hors : head.constraintRoot.elim true (·.orsNonempty) = true)

include hors

/-- A window that gets the facts it is meant to holds them in the node as well. -/
theorem PatternHead.filter_admits (hown : ¬ head.ReadsOwn) (hwindow : head.windowInfo ≠ none)
    (hfeeds : head.FeedsWindow b S source) :
    source.filter (head.admits S b S.token) =
      source.filter ((head.input b entryPoint).passesAlphas S) := by
  refine List.filter_congr fun f hf ↦ ?_
  rw [Bool.eq_iff_iff, passesAlphas_iff, ← head.forall_aboutTest_iff hown (b := b)]
  constructor
  · intro hadmits
    have hkeep := hfeeds hwindow hown f hf hadmits
    obtain ⟨htype, heval⟩ := Bool.and_eq_true_iff.mp hadmits
    exact ⟨of_decide_eq_true htype, (forall_leaves_iff hors).mpr ⟨heval, hkeep⟩⟩
  · rintro ⟨htype, hall⟩
    exact Bool.and_eq_true_iff.mpr ⟨decide_eq_true htype, ((forall_leaves_iff hors).mp hall).1⟩

omit hors in
/-- What satisfies a pattern is not ruled out by a part of it. -/
theorem PatternHead.admits_of_satisfies {f : FactPtr}
    (h : head.satisfies S b S.token f = true) : head.admits S b S.token f = true := by
  obtain ⟨htype, heval⟩ := head.satisfies_iff.mp h
  refine Bool.and_eq_true_iff.mpr ⟨decide_eq_true htype, ?_⟩
  cases hroot : head.constraintRoot with
  | none => rfl
  | some tree =>
    rw [hroot] at heval
    exact ConstraintNode.eval_mono (fun c hc ↦ Bool.or_eq_true_iff.mpr (.inr hc)) heval

/-- The facts that a node matches without a comparison with an own name. -/
theorem PatternHead.hasMatch_iff_matched (htype : head.factType ≠ "")
    (hplain : head.PlainExpressions)
    (hfresh : ∀ name ∈ head.ownNames, b.bindingToIdx.lookup name = none)
    (hown : ¬ head.ReadsOwn) (hfeeds : head.FeedsWindow b S (S.factsAt entryPoint)) :
    b.hasMatch S ⟨head.factType, entryPoint, head.constraintRoot, head.windowInfo⟩ = true ↔
      ∃ f ∈ head.matched S b S.token (S.factsAt entryPoint),
        KeepsBranches head.constraintRoot (S.leafTest (head.scope b) S.token f) := by
  have hpasses : ∀ f, ((S.heap f).type = head.factType ∧
      ∀ c ∈ head.leaves, S.leafTest b S.token f c = true) ↔
      head.satisfies S b S.token f = true ∧
        KeepsBranches head.constraintRoot (S.leafTest (head.scope b) S.token f) := by
    intro f
    rw [head.satisfies_iff, and_assoc, head.forall_leaves_scope_iff hplain hfresh,
      and_iff_right hown]
    exact and_congr_right fun _ ↦ forall_leaves_iff hors
  rw [head.hasMatch_iff htype, PatternHead.matched]
  by_cases hwindow : head.windowInfo = none
  · rw [hwindow]
    constructor
    · rintro ⟨f, hf, hall⟩
      obtain ⟨hsatisfies, hkeep⟩ := (hpasses f).mp hall
      refine ⟨f, List.mem_filter.mpr ⟨List.mem_filter.mpr ⟨?_, ?_⟩, hsatisfies⟩, hkeep⟩
      · exact (List.mem_filter.mp hf).1
      · exact head.admits_of_satisfies hsatisfies
    · rintro ⟨f, hf, hkeep⟩
      obtain ⟨hadmits, hsatisfies⟩ := List.mem_filter.mp hf
      have hall := (hpasses f).mpr ⟨hsatisfies, hkeep⟩
      refine ⟨f, List.mem_filter.mpr ⟨(List.mem_filter.mp hadmits).1, ?_⟩, hall⟩
      exact ((head.accepts_iff b entryPoint).mpr hall).1
  · rw [← head.filter_admits hors hown hwindow hfeeds]
    constructor
    · rintro ⟨f, hf, hall⟩
      obtain ⟨hsatisfies, hkeep⟩ := (hpasses f).mp hall
      exact ⟨f, List.mem_filter.mpr ⟨hf, hsatisfies⟩, hkeep⟩
    · rintro ⟨f, hf, hkeep⟩
      obtain ⟨hheld, hsatisfies⟩ := List.mem_filter.mp hf
      exact ⟨f, hheld, (hpasses f).mpr ⟨hsatisfies, hkeep⟩⟩

omit hors in
/-- A node never matches where a constraint compares with an own name. -/
theorem PatternHead.hasMatch_of_readsOwn (htype : head.factType ≠ "")
    (hfresh : ∀ name ∈ head.ownNames, b.bindingToIdx.lookup name = none) (hown : head.ReadsOwn) :
    b.hasMatch S ⟨head.factType, entryPoint, head.constraintRoot, head.windowInfo⟩ = false := by
  refine Bool.eq_false_iff.mpr fun hmatch ↦ ?_
  obtain ⟨f, -, -, hall⟩ := (head.hasMatch_iff htype).mp hmatch
  obtain ⟨c, hc, hreads⟩ := hown
  exact Bool.noConfusion ((leafTest_of_unbound hfresh hreads).symm.trans (hall c hc))

/-- Where no fact satisfies a pattern, its node matches none. -/
theorem PatternHead.hasMatch_of_unsatisfied (htype : head.factType ≠ "")
    (hplain : head.PlainExpressions)
    (hfresh : ∀ name ∈ head.ownNames, b.bindingToIdx.lookup name = none)
    (hnone : ∀ f, head.satisfies S b S.token f = false) :
    b.hasMatch S ⟨head.factType, entryPoint, head.constraintRoot, head.windowInfo⟩ = false := by
  refine Bool.eq_false_iff.mpr fun hmatch ↦ ?_
  obtain ⟨f, -, hf, hall⟩ := (head.hasMatch_iff htype).mp hmatch
  have hinner := ((head.forall_leaves_scope_iff hplain hfresh).mp hall).2
  have hsatisfies := head.satisfies_iff.mpr ⟨hf, ((forall_leaves_iff hors).mp hinner).1⟩
  exact Bool.noConfusion ((hnone f).symm.trans hsatisfies)

end Match

/-! ### Agreement -/

/-- What the grammar and the semantic analysis give of a nested pattern that reads facts: a type, a
branch to every OR, and names of its own that no earlier pattern has. -/
structure NestedPattern.Accepted (b : ChainBuilder) (nested : NestedPattern) : Prop where
  named : ∀ head ∈ nested.head, head.factType ≠ ""
  ors : ∀ head ∈ nested.head, head.constraintRoot.elim true (·.orsNonempty) = true
  fresh : ∀ head ∈ nested.head, ∀ name ∈ head.ownNames, b.bindingToIdx.lookup name = none

/-- The situations that an element is compared in. For one with an accumulate or an unnest source,
the facts at the entry points and those of the sources are any. -/
def NestedPattern.Alike (S S' : Situation) : NestedPattern → Prop
  | .accumulate .. | .unnest .. =>
    ∃ facts accumulated unnested, S' = { S with facts, accumulated, unnested }
  | _ => S' = S

/-- No window, and no expression that asks for an own name. -/
def NestedPattern.IsPlain (nested : NestedPattern) : Prop :=
  ∀ head ∈ nested.head, head.windowInfo = none ∧ head.PlainExpressions

section Agreement

variable {b : ChainBuilder} {S : Situation} {kind : ConditionKind} {nested : NestedPattern}

theorem NestedPattern.agrees_standard {head : PatternHead} {entryPoint : Option String}
    (h : (NestedPattern.standard head entryPoint).Accepted b)
    (hexact : (NestedPattern.standard head entryPoint).IsExact b S) :
    (NestedPattern.standard head entryPoint).Agrees b S kind := by
  obtain ⟨hplain, hfeeds, hkept⟩ := hexact
  have htype := h.named head rfl
  have hfresh := h.fresh head rfl
  rw [agrees_iff]
  show b.hasMatch S ⟨head.factType, entryPoint, head.constraintRoot, head.windowInfo⟩ = true ↔
    (head.matched S b S.token (S.factsAt entryPoint) != []) = true
  rw [bne_iff_ne]
  by_cases hown : head.ReadsOwn
  · rw [head.hasMatch_of_readsOwn htype hfresh hown]
    exact ⟨nofun, fun hmatched ↦ absurd hown (hkept hmatched).1⟩
  · rw [head.hasMatch_iff_matched (h.ors head rfl) htype hplain hfresh hown hfeeds]
    constructor
    · rintro ⟨f, hf, -⟩
      exact List.ne_nil_of_mem hf
    · exact fun hmatched ↦ (hkept hmatched).2

theorem NestedPattern.isExact_standard {head : PatternHead} {entryPoint : Option String}
    (h : (NestedPattern.standard head entryPoint).Accepted b)
    (hplain : (NestedPattern.standard head entryPoint).IsPlain)
    (hagrees : (NestedPattern.standard head entryPoint).Agrees b S kind) :
    (NestedPattern.standard head entryPoint).IsExact b S := by
  obtain ⟨hwindow, hexpressions⟩ := hplain head rfl
  have htype := h.named head rfl
  have hfresh := h.fresh head rfl
  have hfeeds : head.FeedsWindow b S (S.factsAt entryPoint) := fun hne ↦ absurd hwindow hne
  refine ⟨hexpressions, hfeeds, fun hmatched ↦ ?_⟩
  have hmatch : b.hasMatch S ⟨head.factType, entryPoint, head.constraintRoot, head.windowInfo⟩ =
      true := (agrees_iff.mp hagrees).mpr (bne_iff_ne.mpr hmatched)
  by_cases hown : head.ReadsOwn
  · rw [head.hasMatch_of_readsOwn htype hfresh hown] at hmatch
    cases hmatch
  · exact ⟨hown, (head.hasMatch_iff_matched (h.ors head rfl) htype hexpressions hfresh hown
      hfeeds).mp hmatch⟩

/-- An element without a fact type agrees exactly where it does not hold. -/
theorem NestedPattern.agrees_of_untyped (htype : nested.pattern.factType = "") :
    nested.Agrees b S kind ↔ nested.holds S b S.token = false := by
  rw [agrees_iff, ChainBuilder.hasMatch_of_untyped htype]
  simp

section OtherSource

variable {head : PatternHead} {source : List FactPtr}
  (hpattern : nested.pattern = ⟨head.factType, none, head.constraintRoot, head.windowInfo⟩)
  (hholds : nested.holds S b S.token = (head.matched S b S.token source != []))

include hpattern hholds

/-- Where no fact satisfies a pattern with another source, it agrees, whatever the source gives. -/
theorem NestedPattern.agrees_of_unsatisfied (h : nested.Accepted b) (hhead : nested.head = some head)
    (hplain : head.PlainExpressions) (hnone : ∀ f, head.satisfies S b S.token f = false) :
    nested.Agrees b S kind := by
  have hnode : b.hasMatch S nested.pattern = false := by
    rw [hpattern]
    exact head.hasMatch_of_unsatisfied (h.ors head hhead) (h.named head hhead) hplain
      (h.fresh head hhead) hnone
  have hmatched : head.matched S b S.token source = [] :=
    List.filter_eq_nil_iff.mpr fun f _ ↦ Bool.eq_false_iff.mp (hnone f)
  rw [agrees_iff, hnode, hholds, hmatched]
  exact Iff.rfl

/-- A source with a fact that satisfies the pattern, and a working memory without any facts, do not
agree. -/
theorem NestedPattern.not_agrees_of_satisfies (h : nested.Accepted b)
    (hhead : nested.head = some head) (hwindow : head.windowInfo = none) {f : FactPtr}
    (hsource : source = [f]) (hfacts : S.factsAt none = [])
    (hf : head.satisfies S b S.token f = true) : ¬ nested.Agrees b S kind := by
  have hmem : f ∈ head.matched S b S.token source := by
    rw [PatternHead.matched, hwindow, hsource]
    exact List.mem_filter.mpr
      ⟨List.mem_filter.mpr ⟨List.mem_singleton_self f, head.admits_of_satisfies hf⟩, hf⟩
  intro hagrees
  have hmatch : b.hasMatch S nested.pattern = true := by
    rw [agrees_iff.mp hagrees, hholds]
    exact bne_iff_ne.mpr (List.ne_nil_of_mem hmem)
  rw [hpattern] at hmatch
  obtain ⟨g, hg, -⟩ := (head.hasMatch_iff (h.named head hhead)).mp hmatch
  rw [hwindow, hfacts] at hg
  exact List.not_mem_nil hg

end OtherSource

/-- Exact elements agree. -/
theorem NestedPattern.IsExact.agrees (h : nested.Accepted b) (hexact : nested.IsExact b S)
    {S' : Situation} (halike : nested.Alike S S') : nested.Agrees b S' kind := by
  cases nested with
  | standard head entryPoint =>
    obtain rfl : S' = S := halike
    exact NestedPattern.agrees_standard h hexact
  | accumulate head function field source =>
    obtain ⟨facts, accumulated, unnested, rfl⟩ := halike
    exact NestedPattern.agrees_of_unsatisfied rfl rfl h rfl hexact.1 hexact.2
  | unnest head source =>
    obtain ⟨facts, accumulated, unnested, rfl⟩ := halike
    exact NestedPattern.agrees_of_unsatisfied rfl rfl h rfl hexact.1 hexact.2
  | _ =>
    obtain rfl : S' = S := halike
    exact (NestedPattern.agrees_of_untyped rfl).mpr hexact

/-- Plain elements that agree are exact. -/
theorem NestedPattern.IsExact.of_agrees (h : nested.Accepted b) (hplain : nested.IsPlain)
    (hagrees : ∀ S', nested.Alike S S' → nested.Agrees b S' kind) : nested.IsExact b S := by
  cases nested with
  | standard head entryPoint =>
    exact NestedPattern.isExact_standard h hplain (hagrees S rfl)
  | accumulate head function field source =>
    obtain ⟨hwindow, hexpressions⟩ := hplain head rfl
    refine ⟨hexpressions, fun f ↦ Bool.eq_false_iff.mpr fun hf ↦ ?_⟩
    -- the source gives this fact, and working memory is empty
    have hagrees := hagrees { S with facts := fun _ ↦ [], accumulated := fun _ _ _ _ _ ↦ [f] }
      ⟨_, _, _, rfl⟩
    exact absurd hagrees
      (NestedPattern.not_agrees_of_satisfies rfl rfl h rfl hwindow rfl rfl hf)
  | unnest head source =>
    obtain ⟨hwindow, hexpressions⟩ := hplain head rfl
    refine ⟨hexpressions, fun f ↦ Bool.eq_false_iff.mpr fun hf ↦ ?_⟩
    have hagrees := hagrees { S with facts := fun _ ↦ [], unnested := fun _ _ _ ↦ [f] }
      ⟨_, _, _, rfl⟩
    exact absurd hagrees
      (NestedPattern.not_agrees_of_satisfies rfl rfl h rfl hwindow rfl rfl hf)
  | _ => exact (NestedPattern.agrees_of_untyped rfl).mp (hagrees S rfl)

end Agreement

/-- `$a : A()`. -/
def boundA : ConditionElement := { binding := "$a", factType := "A" }

/-- `$o : B(x == $a.x, z == 1) over window:length(2)`. -/
def recentB : NestedPattern :=
  .standard
    { binding := "$o"
      factType := "B"
      constraintRoot := some (.and
        [.leaf { leftField := "x", op := .eq, rightBoundField := some ("$a", "x") },
          .leaf { leftField := "z", op := .eq, rightLiteral := some (.int64 1) }])
      windowInfo := some ⟨.length, 2⟩ } none

/-- An `A` with `x = 5`, and the `B` of the given `x` and `z`. -/
def factOfB (x z : ℤ) : Fact := { type := "B", fields := [("x", .int64 x), ("z", .int64 z)] }

/-- The token of an `A` with `x = 5`, and three `B`, of which the last has `z = 2`. -/
def threeB : Situation where
  heap := fun p ↦
    match p with
    | 1 => { type := "A", fields := [("x", .int64 5)] }
    | 2 => factOfB 5 1
    | 3 => factOfB 6 1
    | _ => factOfB 5 2
  library := bareLibrary
  token := .mk 0 .root 1
  facts := fun source ↦ if source = none then [2, 3, 4] else []

/-- `A()`. -/
def anyA : NestedPattern := .standard { factType := "A" } none

/-- The given facts, each at its address, are all of type `A`. -/
def factsOfA (addresses : List FactPtr) : Situation where
  heap := fun _ ↦ { type := "A" }
  library := bareLibrary
  token := .root
  facts := fun source ↦ if source = none then addresses else []

/-- `$b : B(x == $b.z)`, which matches no fact: the name of the pattern is not taken up. -/
example :
    let nested : NestedPattern := .standard
      { binding := "$b"
        factType := "B"
        constraintRoot := some (.leaf
          { leftField := "x", op := .eq, rightBoundField := some ("$b", "z") }) } none
    let S : Situation := { factsOfA [1] with heap := fun _ ↦ factOfB 1 1 }
    nested.holds S { network := {} } .root = true ∧
      ChainBuilder.hasMatch S { network := {} } nested.pattern = false := by
  decide +kernel

end RulesForge
