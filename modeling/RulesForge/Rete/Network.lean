import Mathlib.Data.List.Sort
import RulesForge.Library.SortedMap
import RulesForge.Rete.Partition

/-!
# The compiled network

Nodes and their sharing (`include/rete/compiled_network.hpp`), the builder that lays out
the chain of nodes of one condition group (`src/rete/beta_builder.cpp`), and the
compilation of a list of rules (`KnowledgeBase::compile_network`).

A node's id is its position in the list of nodes. The builder below covers the patterns
that read working memory directly: standard patterns, NOT and EXISTS.
-/

namespace RulesForge

/-! ### Nodes -/

/-- What a join or condition node tests: the join constraints of its pattern, with the
variables in scope when it was built. -/
structure JoinCondition where
  joins : List ParsedConstraint
  bindings : Bindings
  scalarFields : ScalarFields

/-- `NotNode` and `ExistsNode`. -/
inductive ConditionKind where
  | not | exists
  deriving DecidableEq, Repr

/-- `EvalRuntimeArgument`, a variable with the position and the field its node has resolved it to. -/
inductive EvalRuntimeArgument where
  | variable (tokenDepth : Option ℕ) (fieldName : String)
  | literal (value : ConstraintValue)
  | numericExpression (text : String)

/-- `EvalNode`. The predicate is the one that the expression has been compiled to, by its external
name, and its arguments. -/
structure EvalNode where
  expression : String
  bindings : Bindings
  scalarFields : ScalarFields := []
  predicate : Option (String × List EvalRuntimeArgument) := none

/-- The nodes that get tokens and no facts: eval nodes, and the terminal nodes of queries. -/
inductive TokenNode where
  | eval (node : EvalNode)
  | queryTerminal (bindings : Bindings)

/-- The kinds of node with their parameters. A hashed join is indexed on the left by a field
of the fact at a position of the token and on the right by a field of the fact. -/
inductive NodeKind where
  | entryPoint
  | alpha (constraint : ParsedConstraint)
  | crossProductJoin (condition : JoinCondition)
  | hashedJoin (condition : JoinCondition) (leftHashKey : String × ℕ) (rightHashKey : String)
  | condition (kind : ConditionKind) (condition : JoinCondition)
  | terminal (rule : ℕ) (bindings : Bindings)
  | tokenNode (node : TokenNode)

/-- `ReteNode::is_beta_node`. Terminal nodes are not counted. -/
def NodeKind.isBetaNode : NodeKind → Bool
  | crossProductJoin _ | hashedJoin _ _ _ | condition _ _ | tokenNode (.eval _) => true
  | _ => false

/-- The kinds of node that stand for a standard pattern, a NOT or an EXISTS. -/
def NodeKind.IsPatternNode : NodeKind → Prop
  | crossProductJoin _ | hashedJoin _ _ _ | condition _ _ => True
  | _ => False

theorem NodeKind.IsPatternNode.isBetaNode {k : NodeKind} (h : k.IsPatternNode) :
    k.isBetaNode = true := by
  cases k with
  | crossProductJoin | hashedJoin | condition => rfl
  | entryPoint | alpha | terminal | tokenNode => exact h.elim

structure ReteNode where
  kind : NodeKind
  children : List ℕ := []
  parents : List ℕ := []

/-! ### Equality of constraints -/

/-- `operator==` of the value variant on the literals of constraints. Collections are shared
pointers and differ between literals. -/
def literalEquals : ConstraintValue → ConstraintValue → Bool
  | .string a, .string b => a = b
  | .int64 a, .int64 b => a = b
  | .double .nan, _ => false
  | .double a, .double b => a = b
  | .nil, .nil => true
  | .uuid a, .uuid b => a = b
  | .bool a, .bool b => a = b
  | .uint64 a, .uint64 b => a = b
  | .bytes a, .bytes b => a = b
  | .enum a, .enum b => a.typeName = b.typeName ∧ a.value = b.value
  | .dateTime a, .dateTime b => a = b
  | .date a, .date b => a = b
  | .time a, .time b => a = b
  | .duration a, .duration b => a = b
  | .decimal a, .decimal b => a = b
  | .bigInt a, .bigInt b => a = b
  | .money a, .money b => a = b
  | _, _ => false

/-- Pointwise equality of two lists under a test. -/
def listEquals {α : Type} (eq : α → α → Bool) : List α → List α → Bool
  | [], [] => true
  | a :: as, b :: bs => eq a b && listEquals eq as bs
  | _, _ => false

/-- Equality of two optional values under a test. -/
def optionEquals {α : Type} (eq : α → α → Bool) : Option α → Option α → Bool
  | none, none => true
  | some a, some b => eq a b
  | _, _ => false

/-- `ParsedConstraint::operator==`. -/
def ParsedConstraint.equals (c c' : ParsedConstraint) : Bool :=
  decide (c.op = c'.op) && decide (c.leftField = c'.leftField) &&
    decide (c.fieldBinding = c'.fieldBinding) && decide (c.leftBinding = c'.leftBinding) &&
    optionEquals literalEquals c.rightLiteral c'.rightLiteral &&
    decide (c.rightBoundField = c'.rightBoundField) &&
    optionEquals (listEquals literalEquals) c.rightValueList c'.rightValueList &&
    decide (c.rightArithExpr = c'.rightArithExpr) &&
    decide (c.temporalConstraint = c'.temporalConstraint)

/-! ### Sharing -/

/-- Equality of two conditions in the key of the beta cache. -/
def JoinCondition.equals (a b : JoinCondition) : Bool :=
  listEquals ParsedConstraint.equals a.joins b.joins && decide (a.bindings = b.bindings) &&
    decide (a.scalarFields = b.scalarFields)

/-- Equality of two kinds in the key of the beta cache; the key of a node that is never
shared equals none. -/
def NodeKind.equals : NodeKind → NodeKind → Bool
  | crossProductJoin a, crossProductJoin b => a.equals b
  | hashedJoin a l r, hashedJoin b l' r' => a.equals b && decide (l = l') && decide (r = r')
  | condition k a, condition k' b => decide (k = k') && a.equals b
  | _, _ => false

structure CompiledNetwork where
  nodes : List ReteNode := []
  betaRootNodes : List ℕ := []
  alphaEntryPoints : List (String × ℕ) := []
  namedEntryPoints : List (String × List (String × ℕ)) := []
  alphaCache : List (ℕ × ParsedConstraint × ℕ) := []
  betaCache : List (NodeKind × List ℕ × ℕ) := []

namespace CompiledNetwork

variable (net : CompiledNetwork)

/-- The node with a given id; past the end, an entry point without children. -/
def node (n : ℕ) : ReteNode :=
  net.nodes[n]?.getD { kind := .entryPoint }

def kind (n : ℕ) : NodeKind := (net.node n).kind

def children (n : ℕ) : List ℕ := (net.node n).children

/-- `create_node`: the new node's id is the number of nodes so far. -/
def createNode (kind : NodeKind) : ℕ × CompiledNetwork :=
  (net.nodes.length, { net with nodes := net.nodes ++ [{ kind := kind }] })

/-- `ReteNode::add_child`. -/
def addChild (parent child : ℕ) : CompiledNetwork :=
  { net with
    nodes :=
      (net.nodes.modify parent fun n ↦ { n with children := n.children ++ [child] }).modify child
        fun n ↦ { n with parents := n.parents ++ [parent] } }

/-- `find_or_create_alpha`: an alpha node is shared below the same parent. -/
def findOrCreateAlpha (parent : ℕ) (c : ParsedConstraint) : ℕ × CompiledNetwork :=
  match net.alphaCache.find? fun entry ↦ decide (entry.1 = parent) && entry.2.1.equals c with
  | some entry => (entry.2.2, net)
  | none =>
    let (n, net) := net.createNode (.alpha c)
    let net := net.addChild parent n
    (n, { net with alphaCache := net.alphaCache ++ [(parent, c, n)] })

/-- `find_or_create_beta_node`: a node is shared when its kind, conditions and parents agree.
A node without a beta parent is a root of the beta network. -/
def findOrCreateBetaNode (parents : List ℕ) (kind : NodeKind) : ℕ × CompiledNetwork :=
  let sorted := parents.insertionSort (· ≤ ·)
  match net.betaCache.find? fun entry ↦ entry.1.equals kind && decide (entry.2.1 = sorted) with
  | some entry => (entry.2.2, net)
  | none =>
    let hasBetaParent := parents.any fun p ↦ (net.kind p).isBetaNode
    let (n, net) := net.createNode kind
    let net := parents.foldl (fun net p ↦ net.addChild p n) net
    let net := { net with betaCache := net.betaCache ++ [(kind, sorted, n)] }
    (n, if hasBetaParent then net else { net with betaRootNodes := net.betaRootNodes ++ [n] })

/-- The node at which facts of a type enter, through the default entry point or a named one. -/
def entry (source : Option String) (factType : String) : Option ℕ :=
  match source with
  | none => net.alphaEntryPoints.lookup factType
  | some name => (net.namedEntryPoints.lookup name).bind (·.lookup factType)

def setEntry (source : Option String) (factType : String) (n : ℕ) : CompiledNetwork :=
  match source with
  | none => { net with alphaEntryPoints := SortedMap.insert factType n net.alphaEntryPoints }
  | some name =>
    let types := (net.namedEntryPoints.lookup name).getD []
    { net with
      namedEntryPoints :=
        SortedMap.insert name (SortedMap.insert factType n types) net.namedEntryPoints }

/-- The entry point of a fact type, created on first use. -/
def entryPoint (source : Option String) (factType : String) : ℕ × CompiledNetwork :=
  match net.entry source factType with
  | some n => (n, net)
  | none =>
    let (n, net) := net.createNode .entryPoint
    (n, net.setEntry source factType n)

/-- `build_alpha_chain`: one alpha node for each leaf, each below the one before. -/
def buildAlphaChain : CompiledNetwork → ℕ → List ParsedConstraint → ℕ × CompiledNetwork
  | net, tail, [] => (tail, net)
  | net, tail, c :: cs =>
    let (n, net) := net.findOrCreateAlpha tail c
    buildAlphaChain net n cs

end CompiledNetwork

/-! ### The builder -/

/-- The entry point a pattern reads from; an empty name is that of the default one. -/
def ParsedPattern.source (pattern : ParsedPattern) : Option String :=
  pattern.entryPoint.filter (· ≠ "")

/-- The state of `BetaNetworkBuilder::build` between two patterns. -/
structure BetaNetworkBuilder where
  network : CompiledNetwork
  lastNode : Option ℕ := none
  bindingToIdx : Bindings := []
  inlineBindingToField : ScalarFields := []
  patternDepth : ℕ := 0

namespace BetaNetworkBuilder

/-- `collect_inline_bindings` over the leaves of a pattern's tree. -/
def collectInlineBindings (b : BetaNetworkBuilder) (leaves : List ParsedConstraint) :
    BetaNetworkBuilder :=
  leaves.foldl (fun b c ↦
    match c.fieldBinding with
    | none => b
    | some binding =>
      { b with
        bindingToIdx := SortedMap.insert binding b.patternDepth b.bindingToIdx
        inlineBindingToField := SortedMap.insert binding c.leftField b.inlineBindingToField }) b

/-- The index of a join or condition node: the first equality whose variable is in scope. -/
def hashKey (bindings : Bindings) : List ParsedConstraint → Option ((String × ℕ) × String)
  | [] => none
  | c :: cs =>
    match c.op, c.rightBoundField with
    | .eq, some (binding, field) =>
      match bindings.lookup binding with
      | some idx => some ((field, idx), c.leftField)
      | none => hashKey bindings cs
    | _, _ => hashKey bindings cs

/-- `create_standard_node`: the first node of a chain is a cross product, later ones are
hashed when there is a key. -/
def standardKind (hasLastNode : Bool) (condition : JoinCondition) : NodeKind :=
  match hasLastNode, hashKey condition.bindings condition.joins with
  | true, some (left, right) => .hashedJoin condition left right
  | _, _ => .crossProductJoin condition

/-- `create_node_for_pattern`: `pattern` supplies the tests and the fact type, `kind` the node
to build from the join constraints. -/
def createNodeForPattern (b : BetaNetworkBuilder) (pattern : ParsedPattern)
    (kind : Bool → JoinCondition → NodeKind) : BetaNetworkBuilder :=
  let (entry, net) := b.network.entryPoint pattern.source pattern.factType
  let tests := installedTests b.inlineBindingToField pattern.constraintRoot
  let (tail, net) := net.buildAlphaChain entry tests.alphas
  let condition : JoinCondition := ⟨tests.joins, b.bindingToIdx, b.inlineBindingToField⟩
  let parents := tail :: b.lastNode.toList
  let (n, net) := net.findOrCreateBetaNode parents (kind b.lastNode.isSome condition)
  { b with network := net, lastNode := some n }

/-- One round of the loop in `build`. Only a standard pattern adds a fact to the token, and
only such a pattern may carry a binding; the nested pattern of a NOT or EXISTS is its first.
The grammar gives a NOT and an EXISTS a nested pattern, and a `forall` is expanded or
rejected before the network is built. -/
def addPattern (b : BetaNetworkBuilder) (pattern : ParsedPattern) :
    Except String BetaNetworkBuilder :=
  match pattern.type with
  | .standard =>
    let b :=
      if pattern.binding = "" then b
      else { b with bindingToIdx := SortedMap.insert pattern.binding b.patternDepth b.bindingToIdx }
    let b := b.collectInlineBindings (pattern.constraintRoot.elim [] (·.leaves))
    let b := b.createNodeForPattern pattern standardKind
    .ok { b with patternDepth := b.patternDepth + 1 }
  | type =>
    if pattern.binding ≠ "" then
      .error "pattern binding is only supported for fact-producing patterns"
    else
      let b := b.collectInlineBindings (pattern.constraintRoot.elim [] (·.leaves))
      match type, pattern.nestedPatterns with
      | .not, nested :: _ => .ok (b.createNodeForPattern nested fun _ c ↦ .condition .not c)
      | .exists, nested :: _ => .ok (b.createNodeForPattern nested fun _ c ↦ .condition .exists c)
      | _, _ => .error "pattern without a nested pattern"

/-- `build`: the nodes of one condition group. -/
def build (net : CompiledNetwork) (patterns : List ParsedPattern) :
    Except String BetaNetworkBuilder :=
  patterns.foldlM addPattern { network := net }

end BetaNetworkBuilder

/-! ### Compilation -/

/-- The attributes of a rule that the network, the agenda and the execution cycle read. -/
structure ParsedRule where
  name : String
  salience : ℤ := 0
  noLoop : Bool := false
  lockOnActive : Bool := false
  enabled : Bool := true
  autoFocus : Bool := false
  duration : ℤ := 0
  agendaGroup : Option String := none
  activationGroup : Option String := none
  conditionGroups : List (List ParsedPattern) := []

/-- Rules without conditions have no nodes; they are activated when a session starts. -/
def ParsedRule.hasNoConditions (rule : ParsedRule) : Bool :=
  match rule.conditionGroups with
  | [] | [[]] => true
  | _ => false

/-- The chain of one condition group with its terminal node, which is never shared. -/
def compileGroup (net : CompiledNetwork) (rule : ℕ) (group : List ParsedPattern) :
    Except String CompiledNetwork := do
  let b ← BetaNetworkBuilder.build net group
  let (terminal, net) := b.network.createNode (.terminal rule b.bindingToIdx)
  return b.lastNode.elim net (net.addChild · terminal)

/-- The condition groups of one rule, in order. -/
def compileRule (net : CompiledNetwork) (rule : ℕ × ParsedRule) : Except String CompiledNetwork :=
  if !rule.2.enabled || rule.2.hasNoConditions then .ok net
  else rule.2.conditionGroups.foldlM (compileGroup · rule.1) net

/-- `KnowledgeBase::compile_network`. A rule is named by its position. -/
def compileNetwork (rules : List ParsedRule) : Except String CompiledNetwork :=
  (rules.zipIdx.map Prod.swap).foldlM compileRule {}

end RulesForge
