import RulesForge.Rete.Network

/-!
# The network of rules and queries

The whole of `BetaNetworkBuilder::build` (`src/rete/beta_builder.cpp`): every kind of pattern, the
parameters of a query, and the terminal and input nodes that `KnowledgeBase::compile_network`
puts around a chain.

An edge is kept at its lower end, in the list of parents of a node: `add_child` records it at both.
Next to the network, compilation returns the `Chain` of every condition group and every query:
the node and the **depth** of each pattern, as the loop of `build` has them.
-/

namespace RulesForge

/-! ### Patterns -/

inductive WindowType where
  | time | length
  deriving DecidableEq, Repr

structure ParsedWindow where
  type : WindowType
  value : ℤ
  deriving DecidableEq, Repr

/-- What a pattern says about the facts it reads from working memory. -/
structure FactPattern where
  factType : String
  entryPoint : Option String := none
  constraintRoot : Option ConstraintNode := none
  windowInfo : Option ParsedWindow := none

/-- The source of a `from accumulate` or `from collect` pattern. -/
structure AccumulateSource where
  function : String
  field : String := ""
  sourcePattern : FactPattern

structure ParsedUnnest where
  sourceBinding : String := ""
  sourceField : String := ""
  deriving DecidableEq, Repr

structure ParsedQueryCall where
  queryName : String
  arguments : List String := []
  deriving DecidableEq, Repr

/-- The type of a pattern with its source. A NOT or an EXISTS keeps the first of its nested
patterns; one from a decision table has none. -/
inductive ElementKind where
  | standard (entryPoint : Option String) (windowInfo : Option ParsedWindow)
  | accumulate (source : AccumulateSource)
  | unnest (source : ParsedUnnest)
  | not (nested : Option FactPattern)
  | exists (nested : Option FactPattern)
  | forall
  | eval (expression : String)
  | queryCall (call : ParsedQueryCall)

/-- A condition element of any kind. -/
structure ConditionElement where
  kind : ElementKind := .standard none none
  binding : String := ""
  factType : String := ""
  constraintRoot : Option ConstraintNode := none

/-- A query; its first patterns are its parameters, for the parser adds one with each of them. -/
structure ParsedQuery where
  name : String
  parameterCount : ℕ := 0
  patterns : List ConditionElement := []
  parameterCount_le : parameterCount ≤ patterns.length := by decide

namespace ConditionElement

variable (e : ConditionElement)

/-- `adds_fact_to_token`. -/
def addsFactToToken : Bool :=
  match e.kind with
  | .standard _ _ | .accumulate _ | .unnest _ => true
  | _ => false

/-- `pattern_for_alpha`: the pattern whose facts reach the node from the right. -/
def patternForAlpha : Option FactPattern :=
  match e.kind with
  | .standard entryPoint windowInfo => some ⟨e.factType, entryPoint, e.constraintRoot, windowInfo⟩
  | .accumulate source => some source.sourcePattern
  | .not nested | .exists nested => nested
  | _ => none

def leaves : List ParsedConstraint := e.constraintRoot.elim [] (·.leaves)

/-- `collect_leaf_constraints`: the leaves without the variables on their left. -/
def leafConstraints : List ParsedConstraint := e.leaves.map ({ · with leftBinding := none })

end ConditionElement

/-- `collect_query_output_bindings`. -/
def collectQueryOutputBindings (query : ParsedQuery) : List String :=
  ((query.patterns.drop query.parameterCount).filter fun e ↦
    e.addsFactToToken && decide (e.binding ≠ "")).map (·.binding)

/-- What the builder reads from the knowledge base: the queries, and the functions of the
accumulator registry. -/
structure BuildContext where
  queries : List ParsedQuery := []
  accumulators : String → Bool := fun _ ↦ true

/-- The output bindings of a called query, none when it does not exist. -/
def BuildContext.outputBindings (ctx : BuildContext) (call : ParsedQueryCall) : List String :=
  (ctx.queries.find? fun query ↦ query.name = call.queryName).elim [] collectQueryOutputBindings

/-! ### Nodes -/

/-- The kinds of node. The entry points, alpha nodes, joins, conditions and rule terminals are those
of the network without queries. -/
inductive QueryNodeKind where
  | rete (kind : NodeKind)
  | window (info : ParsedWindow)
  | accumulate (source : AccumulateSource) (resultFactType : String) (bindings : Bindings)
      (joins : List ParsedConstraint)
  | unnest (source : ParsedUnnest) (targetFactType : String) (bindings : Bindings)
      (constraints : List ParsedConstraint)
  | eval (expression : String) (bindings : Bindings) (scalarFields : ScalarFields)
  | queryCall (call : ParsedQueryCall) (bindings : Bindings) (outputBindings : List String)
  | queryTerminal (bindings : Bindings)
  | queryInput (terminal : ℕ)

namespace QueryNodeKind

/-- `ReteNode::is_beta_node`. -/
def isBetaNode : QueryNodeKind → Bool
  | rete kind => kind.isBetaNode
  | accumulate .. | unnest .. | eval .. | queryCall .. | queryInput _ => true
  | window _ | queryTerminal _ => false

/-- Equality in the key of the beta cache. -/
def equals : QueryNodeKind → QueryNodeKind → Bool
  | rete a, rete b => a.equals b
  | eval a bindings fields, eval b bindings' fields' =>
    decide (a = b) && decide (bindings = bindings') && decide (fields = fields')
  | _, _ => false

end QueryNodeKind

/-- A node with its parents. -/
structure QueryNode where
  kind : QueryNodeKind
  parents : List ℕ := []

structure QueryNetwork where
  nodes : List QueryNode := []
  betaRootNodes : List ℕ := []
  alphaEntryPoints : List (String × ℕ) := []
  namedEntryPoints : List (String × List (String × ℕ)) := []
  alphaCache : List (ℕ × ParsedConstraint × ℕ) := []
  betaCache : List (QueryNodeKind × List ℕ × ℕ) := []

namespace QueryNetwork

variable (net : QueryNetwork)

/-- The node with a given id; past the end, an entry point without parents. -/
def node (n : ℕ) : QueryNode := net.nodes[n]?.getD { kind := .rete .entryPoint }

def kind (n : ℕ) : QueryNodeKind := (net.node n).kind

def parents (n : ℕ) : List ℕ := (net.node n).parents

/-- `create_node`, and `add_child` below each of the parents. -/
def createNode (kind : QueryNodeKind) (parents : List ℕ) : ℕ × QueryNetwork :=
  (net.nodes.length, { net with nodes := net.nodes ++ [⟨kind, parents⟩] })

/-- `ReteNode::add_child` between nodes that exist. -/
def addChild (parent child : ℕ) : QueryNetwork :=
  { net with
    nodes := net.nodes.modify child fun n ↦ { n with parents := n.parents ++ [parent] } }

def addRoot (n : ℕ) : QueryNetwork :=
  { net with betaRootNodes := net.betaRootNodes ++ [n] }

/-- `find_or_create_alpha`. -/
def findOrCreateAlpha (parent : ℕ) (c : ParsedConstraint) : ℕ × QueryNetwork :=
  match net.alphaCache.find? fun entry ↦ decide (entry.1 = parent) && entry.2.1.equals c with
  | some entry => (entry.2.2, net)
  | none =>
    let (n, net) := net.createNode (.rete (.alpha c)) [parent]
    (n, { net with alphaCache := net.alphaCache ++ [(parent, c, n)] })

/-- `find_or_create_beta_node`. -/
def findOrCreateBetaNode (parents : List ℕ) (kind : QueryNodeKind) : ℕ × QueryNetwork :=
  let sorted := parents.insertionSort (· ≤ ·)
  match net.betaCache.find? fun entry ↦ entry.1.equals kind && decide (entry.2.1 = sorted) with
  | some entry => (entry.2.2, net)
  | none =>
    let hasBetaParent := parents.any fun p ↦ (net.kind p).isBetaNode
    let (n, net) := net.createNode kind parents
    let net := { net with betaCache := net.betaCache ++ [(kind, sorted, n)] }
    (n, if hasBetaParent then net else net.addRoot n)

/-- The node at which facts of a type enter, created on first use. An empty name is that of the
default entry point. -/
def entryPoint (source : Option String) (factType : String) : ℕ × QueryNetwork :=
  match source.filter (· ≠ "") with
  | none =>
    match net.alphaEntryPoints.lookup factType with
    | some n => (n, net)
    | none =>
      let (n, net) := net.createNode (.rete .entryPoint) []
      (n, { net with alphaEntryPoints := SortedMap.insert factType n net.alphaEntryPoints })
  | some name =>
    let types := (net.namedEntryPoints.lookup name).getD []
    match types.lookup factType with
    | some n => (n, net)
    | none =>
      let (n, net) := net.createNode (.rete .entryPoint) []
      (n, { net with
        namedEntryPoints :=
          SortedMap.insert name (SortedMap.insert factType n types) net.namedEntryPoints })

/-- `build_alpha_chain`. -/
def buildAlphaChain : QueryNetwork → ℕ → List ParsedConstraint → ℕ × QueryNetwork
  | net, tail, [] => (tail, net)
  | net, tail, c :: cs =>
    let (n, net) := net.findOrCreateAlpha tail c
    buildAlphaChain net n cs

/-- The window node below an alpha tail, which is never shared. -/
def attachWindow (tail : ℕ) : Option ParsedWindow → ℕ × QueryNetwork
  | none => (tail, net)
  | some info => net.createNode (.window info) [tail]

end QueryNetwork

/-! ### The builder -/

/-- A pattern with the depth at which `build` met it and the node it built for it. -/
structure Placement where
  element : ConditionElement
  depth : ℕ
  node : ℕ

/-- The state of `BetaNetworkBuilder::build` between two patterns. `placed` is a record of the
patterns so far; the first node of the chain and the last one are among them. -/
structure ChainBuilder where
  network : QueryNetwork
  isQueryBuild : Bool := false
  bindingToIdx : Bindings := []
  inlineBindingToField : ScalarFields := []
  patternDepth : ℕ := 0
  placed : List Placement := []

namespace ChainBuilder

variable (b : ChainBuilder)

/-- `last_node_`. -/
def lastNode : Option ℕ := b.placed.getLast?.map (·.node)

/-- `first_beta_node_in_chain`. -/
def firstNode : Option ℕ := b.placed.head?.map (·.node)

def bind (name : String) (idx : ℕ) : ChainBuilder :=
  { b with bindingToIdx := SortedMap.insert name idx b.bindingToIdx }

/-- A parameter of a query takes a place in the token and has no node. -/
def addParameter (e : ConditionElement) : ChainBuilder :=
  let b := if e.binding = "" then b else b.bind e.binding b.patternDepth
  { b with patternDepth := b.patternDepth + 1 }

/-- `collect_inline_bindings` over the leaves of a pattern's tree. -/
def collectInlineBindings (leaves : List ParsedConstraint) : ChainBuilder :=
  leaves.foldl (fun b c ↦
    match c.fieldBinding with
    | none => b
    | some name =>
      { b.bind name b.patternDepth with
        inlineBindingToField := SortedMap.insert name c.leftField b.inlineBindingToField }) b

/-- The alpha tails of a pattern with its join constraints. -/
def alphaTails (pattern : Option FactPattern) :
    List ℕ × List ParsedConstraint × QueryNetwork :=
  match pattern with
  | none => ([], [], b.network)
  | some pattern =>
    if pattern.factType = "" then ([], [], b.network)
    else
      let (entry, net) := b.network.entryPoint pattern.entryPoint pattern.factType
      let tests := installedTests b.inlineBindingToField pattern.constraintRoot
      let (tail, net) := net.buildAlphaChain entry tests.alphas
      let (tail, net) := net.attachWindow tail pattern.windowInfo
      ([tail], tests.joins, net)

/-- A node that is never shared, and a root when it begins a chain. -/
def createRootedNode (net : QueryNetwork) (kind : QueryNodeKind) (parents : List ℕ) :
    ℕ × QueryNetwork :=
  let (n, net) := net.createNode kind parents
  (n, if b.lastNode.isSome then net else net.addRoot n)

/-- `create_node_for_pattern`. The nested pattern, or its absence, decides the alpha tails of a
condition; a `forall` that was not expanded has none and is built as a join. An unnest node is no
root. -/
def createNodeForPattern (ctx : BuildContext) (e : ConditionElement) :
    Except String (ℕ × QueryNetwork) :=
  let last := b.lastNode.toList
  let (tails, joins, net) := b.alphaTails e.patternForAlpha
  let condition : JoinCondition := ⟨joins, b.bindingToIdx, b.inlineBindingToField⟩
  match e.kind with
  | .eval expression =>
    .ok (b.network.findOrCreateBetaNode last
      (.eval expression b.bindingToIdx b.inlineBindingToField))
  | .queryCall call =>
    .ok (b.createRootedNode b.network
      (.queryCall call b.bindingToIdx (ctx.outputBindings call)) last)
  | .unnest source =>
    .ok (b.network.createNode (.unnest source e.factType b.bindingToIdx e.leafConstraints) last)
  | .accumulate source =>
    if ctx.accumulators source.function then
      .ok (b.createRootedNode net (.accumulate source e.factType b.bindingToIdx joins)
        (last ++ tails))
    else .error ("Unknown accumulate function: " ++ source.function)
  | .not _ => .ok (net.findOrCreateBetaNode (tails ++ last) (.rete (.condition .not condition)))
  | .exists _ =>
    .ok (net.findOrCreateBetaNode (tails ++ last) (.rete (.condition .exists condition)))
  | .standard .. | .forall =>
    .ok (net.findOrCreateBetaNode (tails ++ last)
      (.rete (BetaNetworkBuilder.standardKind (b.lastNode.isSome || b.isQueryBuild) condition)))

/-- The bindings that a query call projects, one place each. -/
def projectOutputs (outputs : List String) : ChainBuilder :=
  outputs.foldl (fun b name ↦
    { b.bind name b.patternDepth with patternDepth := b.patternDepth + 1 }) b

/-- What the depth grows by and what is bound after the node of a pattern is built. -/
def advance (ctx : BuildContext) (e : ConditionElement) : ChainBuilder :=
  match e.kind with
  | .queryCall call => b.projectOutputs (ctx.outputBindings call)
  | _ => if e.addsFactToToken then { b with patternDepth := b.patternDepth + 1 } else b

/-- The names that a pattern binds to its own fact. -/
def bindPattern (e : ConditionElement) : ChainBuilder :=
  (if e.binding = "" then b else b.bind e.binding b.patternDepth).collectInlineBindings e.leaves

/-- One round of the loop in `build`. -/
def addPattern (ctx : BuildContext) (e : ConditionElement) : Except String ChainBuilder :=
  if e.binding ≠ "" ∧ e.addsFactToToken = false then
    .error "pattern binding is only supported for fact-producing patterns"
  else
    let b := b.bindPattern e
    match b.createNodeForPattern ctx e with
    | .error message => .error message
    | .ok (n, net) =>
      .ok (advance { b with network := net, placed := b.placed ++ [⟨e, b.patternDepth, n⟩] } ctx e)

/-- `build`. -/
def build (ctx : BuildContext) (net : QueryNetwork) (patterns : List ConditionElement)
    (isQuery : Bool) (parameterCount : ℕ) : Except String ChainBuilder :=
  (patterns.drop parameterCount).foldlM (fun b e ↦ b.addPattern ctx e)
    ((patterns.take parameterCount).foldl addParameter
      { network := net, isQueryBuild := isQuery })

end ChainBuilder

/-! ### Compilation -/

/-- The nodes of one condition group or one query. A query with parameters has an input node. -/
structure Chain where
  parameters : List ConditionElement := []
  placed : List Placement
  bindings : Bindings
  terminal : ℕ
  input : Option ℕ := none

/-- The part of a rule that the network is built from. -/
structure RuleConditions where
  enabled : Bool := true
  conditionGroups : List (List ConditionElement) := []

def RuleConditions.hasNoConditions (rule : RuleConditions) : Bool :=
  match rule.conditionGroups with
  | [] | [[]] => true
  | _ => false

/-- A network with the terminal and input nodes of its queries and the chains compiled into it. -/
structure Compilation where
  network : QueryNetwork := {}
  queryNodes : List (String × ℕ) := []
  parameterizedQueryInputs : List (String × ℕ) := []
  chains : List Chain := []

namespace Compilation

variable (ctx : BuildContext)

/-- The chain of one condition group with its terminal node. -/
def compileGroup (rule : ℕ) (c : Compilation) (group : List ConditionElement) :
    Except String Compilation :=
  match ChainBuilder.build ctx c.network group false 0 with
  | .error message => .error message
  | .ok b =>
    let (terminal, net) :=
      b.network.createNode (.rete (.terminal rule b.bindingToIdx)) b.lastNode.toList
    .ok { c with
      network := net
      chains := c.chains ++ [{ placed := b.placed, bindings := b.bindingToIdx, terminal }] }

def compileRule (c : Compilation) (rule : ℕ × RuleConditions) : Except String Compilation :=
  if !rule.2.enabled || rule.2.hasNoConditions then .ok c
  else rule.2.conditionGroups.foldlM (compileGroup ctx rule.1) c

/-- The chain of one query with its terminal node and, when it has parameters, its input node. -/
def compileQuery (c : Compilation) (query : ParsedQuery) : Except String Compilation :=
  match ChainBuilder.build ctx c.network query.patterns true query.parameterCount with
  | .error message => .error message
  | .ok b =>
    let (terminal, net) := b.network.createNode (.queryTerminal b.bindingToIdx) b.lastNode.toList
    let c := { c with queryNodes := SortedMap.insert query.name terminal c.queryNodes }
    let chain : Chain :=
      { parameters := query.patterns.take query.parameterCount
        placed := b.placed
        bindings := b.bindingToIdx
        terminal := terminal }
    if query.parameterCount = 0 then .ok { c with network := net, chains := c.chains ++ [chain] }
    else
      let (input, net) := net.createNode (.queryInput terminal) []
      .ok { c with
        network := net.addChild input (b.firstNode.getD terminal)
        parameterizedQueryInputs := SortedMap.insert query.name input c.parameterizedQueryInputs
        chains := c.chains ++ [{ chain with input := some input }] }

/-- `KnowledgeBase::compile_network`: the rules, named by their positions, and then the queries. -/
def compileNetwork (rules : List RuleConditions) : Except String Compilation :=
  match (rules.zipIdx.map Prod.swap).foldlM (compileRule ctx) {} with
  | .error message => .error message
  | .ok c => ctx.queries.foldlM (compileQuery ctx) c

end Compilation

end RulesForge
