import RulesForge.Library.Grouping
import RulesForge.Rete.Memory

/-!
# Activation of nodes

The `left_activate`, `right_activate` and batch methods of the nodes
(`src/rete/rete_node.cpp`, `src/rete/rete_node_terminal.inc`).

A node method takes the **emission** of a token to the node's children as an argument; the
recursion through the network is in `leftActivate` and `rightActivate` alone, and bounded by
a number of levels, for which the number of nodes is enough. When a terminal node drops a
token it tells the session, which may withdraw justifications: that call is the argument
`logicalRetract`.
-/

namespace RulesForge

/-- What happened to a fact, or to a token. -/
inductive PropagationType where
  | assert | retract | modify
  deriving DecidableEq, Repr

/-- Handing a token to the children of a node. -/
abbrev Emission := TokenWME → PropagationType → Session → Session

variable (kb : KnowledgeBase) (logicalRetract : TokenWME → Session → Session)

/-! ### Joins -/

section Join

variable (n : ℕ) (emit : Emission)

/-- The join conditions of a node on a token and a fact, in a session. -/
def checkCondition (c : JoinCondition) (s : Session) (w : TokenWME) (fact : FactPtr) : Bool :=
  checkAllJoinConditions kb.runtime s.heap c.bindings c.scalarFields w fact c.joins

/-- A new child of a left token is recorded. -/
def pushChild (w child : TokenWME) (s : Session) : Session :=
  s.updateMem n fun mem ↦
    { mem with leftToChildren :=
        Function.update mem.leftToChildren w (mem.leftToChildren w ++ [child]) }

def eraseChild (w child : TokenWME) (s : Session) : Session :=
  s.updateMem n fun mem ↦
    { mem with leftToChildren :=
        Function.update mem.leftToChildren w ((mem.leftToChildren w).erase child) }

/-- `BaseJoinNode::propagate_assert`. -/
def propagateAssert (w : TokenWME) (fact : FactPtr) (s : Session) : Session :=
  let (child, s) := s.getOrCreateWme w fact
  emit child .assert (pushChild n w child s)

/-- As `propagate_assert`, with a token that is not looked up in the cache. -/
def propagateAssertUncached (w : TokenWME) (fact : FactPtr) (s : Session) : Session :=
  let (child, s) := s.createWmeUncached w fact
  emit child .assert (pushChild n w child s)

/-- Whether a token ends with the fact of a given id. -/
def endsWithId (factId : FactPtr → ℤ) (id : ℤ) : TokenWME → Bool
  | .root => false
  | .mk _ _ fact => factId fact = id

/-- `BaseJoinNode::propagate_retract`: the child is found by the id of its fact. -/
def propagateRetract (w : TokenWME) (fact : FactPtr) (s : Session) : Session :=
  match ((s.mem n).leftToChildren w).find? (endsWithId (factIds s.heap) (s.heap fact).id) with
  | none => s
  | some child =>
    (eraseChild n w child (emit child .retract s)).invalidateWmeCache kb (child.hash kb.hashes)

/-- The loop over candidate facts of a left activation. -/
def assertFacts (c : JoinCondition) (w : TokenWME) (facts : List FactPtr) (s : Session) :
    Session :=
  facts.foldl (fun s fact ↦
    if checkCondition kb c s w fact then propagateAssert n emit w fact s else s) s

/-- The loop over candidate tokens of a right activation. -/
def assertTokens (c : JoinCondition) (fact : FactPtr) (wmes : List TokenWME) (s : Session) :
    Session :=
  wmes.foldl (fun s w ↦
    if checkCondition kb c s w fact then propagateAssert n emit w fact s else s) s

def retractFacts (w : TokenWME) (facts : List FactPtr) (s : Session) : Session :=
  facts.foldl (fun s fact ↦ propagateRetract kb n emit w fact s) s

def retractTokens (fact : FactPtr) (wmes : List TokenWME) (s : Session) : Session :=
  wmes.foldl (fun s w ↦ propagateRetract kb n emit w fact s) s

/-! ### Cross products -/

def updateCrossProduct (f : CrossProductJoinMem → CrossProductJoinMem) (s : Session) : Session :=
  s.updateMem n fun mem ↦ { mem with crossProductJoin := f mem.crossProductJoin }

/-- `CrossProductJoinNode::left_activate`. -/
def crossProductLeft (c : JoinCondition) (w : TokenWME) (type : PropagationType) (s : Session) :
    Session :=
  let mem := (s.mem n).crossProductJoin
  let facts := mem.right.map Prod.snd
  if type = .retract then
    if w ∈ mem.left then
      retractFacts kb n emit w facts
        (updateCrossProduct n (fun mem ↦ { mem with left := mem.left.erase w }) s)
    else s
  else
    assertFacts kb n emit c w facts
      (updateCrossProduct n (fun mem ↦ { mem with left := mem.left.insert w }) s)

/-- The tokens that a left token makes with the facts of a batch, each recorded as its child; they
are not looked up in the cache of tokens. -/
def createTokens (c : JoinCondition) (w : TokenWME) (facts : List FactPtr) (s : Session) :
    List TokenWME × Session :=
  facts.foldl (fun (wmes, s) fact ↦
    if checkCondition kb c s w fact then
      let (child, s) := s.createWmeUncached w fact
      (wmes ++ [child], pushChild n w child s)
    else (wmes, s)) ([], s)

/-- `CrossProductJoinNode::right_activate_batch`: the facts are stored first, then every left token
hands its new tokens on as a batch. -/
def crossProductRightBatch (emitBatch : List TokenWME → Session → Session) (c : JoinCondition)
    (facts : List FactPtr) (s : Session) : Session :=
  let s := updateCrossProduct n (fun mem ↦ { mem with
    right := facts.foldl (fun right fact ↦ AssocMap.insert (s.heap fact).id fact right) mem.right }) s
  (s.mem n).crossProductJoin.left.foldl (fun s w ↦
    let (wmes, s) := createTokens kb n c w facts s
    if wmes = [] then s else emitBatch wmes s) s

/-- `CrossProductJoinNode::right_activate`. A modified fact is matched anew. -/
def crossProductRight (c : JoinCondition) (fact : FactPtr) (type : PropagationType)
    (s : Session) : Session :=
  let mem := (s.mem n).crossProductJoin
  let id := (s.heap fact).id
  if type = .retract then
    if AssocMap.contains id mem.right then
      retractTokens kb n emit fact mem.left
        (updateCrossProduct n (fun mem ↦ { mem with right := AssocMap.erase id mem.right }) s)
    else s
  else
    let s :=
      if type = .modify ∧ AssocMap.contains id mem.right then
        retractTokens kb n emit fact mem.left s
      else s
    assertTokens kb n emit c fact mem.left
      (updateCrossProduct n (fun mem ↦ { mem with right := AssocMap.insert id fact mem.right }) s)

/-! ### Hashed joins -/

/-- `HashedJoinNode::get_key` and `BetaConditionNode::get_hash_key` on a token. -/
def tokenKey (heap : Heap) (leftHashKey : String × ℕ) (w : TokenWME) : Option ConstraintValue :=
  (w.getFactAtDepth leftHashKey.2).bind (getField heap · leftHashKey.1)

def updateHashed (f : HashedJoinMem → HashedJoinMem) (s : Session) : Session :=
  s.updateMem n fun mem ↦ { mem with hashedJoin := f mem.hashedJoin }

/-- `HashedJoinNode::left_activate`. A token without a key is ignored. -/
def hashedLeft (c : JoinCondition) (leftHashKey : String × ℕ) (w : TokenWME)
    (type : PropagationType) (s : Session) : Session :=
  match tokenKey s.heap leftHashKey w with
  | none => s
  | some key =>
    let ids := factIds s.heap
    let facts := bucket ids key (s.mem n).hashedJoin.right
    if type = .retract then
      retractFacts kb n emit w facts
        (updateHashed n (fun mem ↦ { mem with left := bucketErase ids key w mem.left }) s)
    else
      assertFacts kb n emit c w facts
        (updateHashed n (fun mem ↦ { mem with left := mem.left ++ [(key, w)] }) s)

/-- `HashedJoinNode::right_activate`. The old matches of a modified fact are looked for under
its new key. -/
def hashedRight (c : JoinCondition) (rightHashKey : String) (fact : FactPtr)
    (type : PropagationType) (s : Session) : Session :=
  match getField s.heap fact rightHashKey with
  | none => s
  | some key =>
    let ids := factIds s.heap
    let wmes := bucket ids key (s.mem n).hashedJoin.left
    let eraseRight := updateHashed n fun mem ↦ { mem with right := bucketErase ids key fact mem.right }
    if type = .retract then retractTokens kb n emit fact wmes (eraseRight s)
    else
      let s :=
        if type = .modify ∧ fact ∈ bucket ids key (s.mem n).hashedJoin.right then
          eraseRight (retractTokens kb n emit fact wmes s)
        else s
      assertTokens kb n emit c fact wmes
        (updateHashed n (fun mem ↦ { mem with right := mem.right ++ [(key, fact)] }) s)

/-- The facts of a batch by their keys: equal keys share an entry. -/
def groupByKey (factId : FactPtr → ℤ) (entries : List (ConstraintValue × FactPtr)) :
    List (ConstraintValue × List FactPtr) :=
  Grouping.group (constraintValueEquals factId) entries

/-- `HashedJoinNode::right_activate_batch`: the facts that have a key are stored first, then every
left token of a key makes its tokens, which are handed on one by one. -/
def hashedRightBatch (c : JoinCondition) (rightHashKey : String) (facts : List FactPtr)
    (s : Session) : Session :=
  let ids := factIds s.heap
  let entries := facts.filterMap fun fact ↦
    (getField s.heap fact rightHashKey).map fun key ↦ (key, fact)
  let s := updateHashed n (fun mem ↦ { mem with right := mem.right ++ entries }) s
  (groupByKey ids entries).foldl (fun s (key, keyed) ↦
    (bucket ids key (s.mem n).hashedJoin.left).foldl (fun s w ↦
      keyed.foldl (fun s fact ↦
        if checkCondition kb c s w fact then propagateAssertUncached n emit w fact s else s) s) s) s

end Join

/-! ### NOT and EXISTS -/

section Condition

variable (n : ℕ) (emit : Emission) (kind : ConditionKind) (c : JoinCondition)

/-- `condition_passes` and `was_passing`. -/
def ConditionKind.passes : ConditionKind → ℕ → Bool
  | .not, count => count = 0
  | .exists, count => 0 < count

def updateCondition (f : BetaConditionMem → BetaConditionMem) (s : Session) : Session :=
  s.updateMem n fun mem ↦ { mem with betaCondition := f mem.betaCondition }

/-- The key of a token in an indexed node. -/
def conditionTokenKey (heap : Heap) (w : TokenWME) : Option ConstraintValue :=
  (BetaNetworkBuilder.hashKey c.bindings c.joins).bind fun key ↦ tokenKey heap key.1 w

/-- The key of a fact in an indexed node. -/
def conditionFactKey (heap : Heap) (fact : FactPtr) : Option ConstraintValue :=
  (BetaNetworkBuilder.hashKey c.bindings c.joins).bind fun key ↦ getField heap fact key.2

/-- Whether the node has an index. -/
def JoinCondition.isIndexed : Bool :=
  (BetaNetworkBuilder.hashKey c.bindings c.joins).isSome

/-- `propagate_condition_transition`. -/
def propagateConditionTransition (w : TokenWME) (oldCount newCount : ℕ) (s : Session) : Session :=
  if kind.passes oldCount && !kind.passes newCount then emit w .retract s
  else if !kind.passes oldCount && kind.passes newCount then emit w .assert s
  else s

/-- The token leaves the left memory and its index. -/
def BetaConditionMem.eraseLeft (factId : FactPtr → ℤ) (w : TokenWME) (mem : BetaConditionMem) :
    BetaConditionMem :=
  match mem.leftKeys.lookup w with
  | some key =>
    { mem with
      left := AssocMap.erase w mem.left
      leftIndex := bucketErase factId key w mem.leftIndex
      leftKeys := AssocMap.erase w mem.leftKeys }
  | none =>
    { mem with
      left := AssocMap.erase w mem.left
      leftUnindexed := mem.leftUnindexed.erase w }

/-- The token enters the left memory, with its matches, and the index. -/
def BetaConditionMem.insertLeft (indexed : Bool) (key : Option ConstraintValue) (w : TokenWME)
    (matched : List ℤ) (mem : BetaConditionMem) : BetaConditionMem :=
  let mem := { mem with left := AssocMap.insert w matched mem.left }
  match indexed, key with
  | true, some key =>
    { mem with
      leftIndex := mem.leftIndex ++ [(key, w)]
      leftKeys := AssocMap.emplace w key mem.leftKeys }
  | true, none => { mem with leftUnindexed := mem.leftUnindexed ++ [w] }
  | false, _ => mem

/-- The facts a new token is tested against. -/
def BetaConditionMem.rightCandidates (factId : FactPtr → ℤ) (indexed : Bool)
    (key : Option ConstraintValue) (mem : BetaConditionMem) : List FactPtr :=
  match indexed, key with
  | true, some key => bucket factId key mem.rightIndex ++ mem.rightUnindexed
  | _, _ => mem.right.map Prod.snd

/-- `BetaConditionNode::left_activate`. -/
def conditionLeft (w : TokenWME) (type : PropagationType) (s : Session) : Session :=
  let mem := (s.mem n).betaCondition
  let ids := factIds s.heap
  if type = .retract then
    if AssocMap.contains w mem.left then
      emit w .retract (updateCondition n (BetaConditionMem.eraseLeft ids w) s)
    else s
  else
    let key := conditionTokenKey c s.heap w
    let facts := mem.rightCandidates ids c.isIndexed key
    let matched := ((facts.filter (checkCondition kb c s w)).map ids).dedup
    let s := updateCondition n (BetaConditionMem.insertLeft c.isIndexed key w matched) s
    if kind.passes matched.length then emit w .assert s else s

/-- `append_candidates` of a right activation. -/
def BetaConditionMem.leftCandidates (factId : FactPtr → ℤ) (indexed : Bool)
    (key : Option ConstraintValue) (mem : BetaConditionMem) : List TokenWME :=
  match indexed, key with
  | true, some key => bucket factId key mem.leftIndex ++ mem.leftUnindexed
  | _, _ => mem.left.map Prod.fst

/-- The fact leaves the right index, under the key it was entered with. -/
def BetaConditionMem.unindexRight (factId : FactPtr → ℤ) (indexed : Bool) (fact : FactPtr)
    (mem : BetaConditionMem) : BetaConditionMem :=
  match mem.rightKeys.lookup (factId fact) with
  | some key =>
    { mem with
      rightIndex := bucketErase factId key fact mem.rightIndex
      rightKeys := AssocMap.erase (factId fact) mem.rightKeys }
  | none =>
    if indexed then { mem with rightUnindexed := mem.rightUnindexed.erase fact } else mem

/-- The fact enters the right memory and the right index. -/
def BetaConditionMem.insertRight (factId : FactPtr → ℤ) (indexed : Bool)
    (key : Option ConstraintValue) (fact : FactPtr) (mem : BetaConditionMem) :
    BetaConditionMem :=
  let mem := { mem with right := AssocMap.insert (factId fact) fact mem.right }
  match indexed, key with
  | true, some key =>
    { mem with
      rightIndex := mem.rightIndex ++ [(key, fact)]
      rightKeys := AssocMap.emplace (factId fact) key mem.rightKeys }
  | true, none => { mem with rightUnindexed := mem.rightUnindexed ++ [fact] }
  | false, _ => mem

/-- The match of one token is brought up to date: the fact is dropped from it, and tested
again when `retest` holds. -/
def updateMatch (fact : FactPtr) (existed retest : Bool) (w : TokenWME) (s : Session) : Session :=
  let id := (s.heap fact).id
  match (s.mem n).betaCondition.left.lookup w with
  | none => s
  | some matched =>
    let kept := if existed then matched.filter (· ≠ id) else matched
    let updated := if retest && checkCondition kb c s w fact then kept.insert id else kept
    propagateConditionTransition emit kind w matched.length updated.length
      (updateCondition n (fun mem ↦ { mem with left := AssocMap.insert w updated mem.left }) s)

/-- `BetaConditionNode::right_activate`. The matches of the tokens under the old and under the
new key of the fact are brought up to date, then the index. -/
def conditionRight (fact : FactPtr) (type : PropagationType) (s : Session) : Session :=
  let mem := (s.mem n).betaCondition
  let ids := factIds s.heap
  let existed := AssocMap.contains (ids fact) mem.right
  let asserts := decide (type ≠ .retract)
  if !asserts && !existed then s else
  let newKey := if asserts then conditionFactKey c s.heap fact else none
  let old :=
    if existed then mem.leftCandidates ids c.isIndexed (mem.rightKeys.lookup (ids fact)) else []
  let new := if asserts then mem.leftCandidates ids c.isIndexed newKey else []
  let s := (old ++ new).dedup.foldl (fun s w ↦
    updateMatch kb n emit kind c fact existed (asserts && decide (w ∈ new)) w s) s
  let s := if existed then updateCondition n (BetaConditionMem.unindexRight ids c.isIndexed fact) s
    else s
  if asserts then
    updateCondition n (BetaConditionMem.insertRight ids c.isIndexed newKey fact) s
  else
    updateCondition n (fun mem ↦ { mem with right := AssocMap.erase (ids fact) mem.right }) s

end Condition

/-! ### Terminal nodes -/

section Terminal

variable (n rule : ℕ) (bindings : Bindings)

def updateTerminal (f : List TokenWME → List TokenWME) (s : Session) : Session :=
  s.updateMem n fun mem ↦ { mem with terminal := f mem.terminal }

/-- The activation of a rule for a token. -/
def activationOf (bindings : Option Bindings) (w : TokenWME) : Activation where
  ruleId := rule
  rule := kb.rules[rule]?.getD { name := "" }
  token := w
  hashValue := activationHash kb.hashes rule w
  bindings := bindings

/-- The focus moves to the agenda group of a rule with auto-focus. -/
def applyAutoFocus (s : Session) : Session :=
  let r := kb.rules[rule]?.getD { name := "" }
  match r.autoFocus, r.agendaGroup with
  | true, some group => s.setFocus group
  | _, _ => s

/-- The RETRACT branch of `TerminalNode::left_activate`. The session is told even when the
token was not in memory. -/
def terminalRetract (w : TokenWME) (s : Session) : Session :=
  let s :=
    if w ∈ (s.mem n).terminal then
      (updateTerminal n (·.erase w) s).removeActivation (activationHash kb.hashes rule w)
    else s
  logicalRetract w s

/-- `TerminalNode::left_activate`. -/
def terminalLeft (w : TokenWME) (type : PropagationType) (s : Session) : Session :=
  match type with
  | .retract => terminalRetract kb logicalRetract n rule w s
  | .assert =>
    if w ∈ (s.mem n).terminal then s
    else
      applyAutoFocus kb rule
        ((updateTerminal n (· ++ [w]) s).addActivation kb (activationOf kb rule (some bindings) w))
  | .modify => s

/-- `TerminalNode::left_activate_batch` on tokens that are asserted, as the batch methods of
the joins send them. -/
def terminalLeftBatch (wmes : List TokenWME) (s : Session) : Session :=
  let (s, added) := wmes.foldl (fun (s, added) w ↦
    if w ∈ (s.mem n).terminal then (s, added)
    else (updateTerminal n (· ++ [w]) s, added ++ [activationOf kb rule (some bindings) w])) (s, [])
  if added = [] then s else (applyAutoFocus kb rule s).addActivationsBatch kb added

end Terminal

/-! ### Nodes on tokens alone -/

section TokenNodes

variable (n : ℕ) (emit : Emission) (w : TokenWME) (type : PropagationType)

/-- An argument of an eval node's predicate; the id stands for `this`. -/
def evalArgument (node : EvalNode) (heap : Heap) : EvalRuntimeArgument → Option ConstraintValue
  | .literal value => some value
  | .numericExpression text => do
    let value ← kb.runtime.evaluateRuntimeExpression heap text (← w.getFact)
      (some (w, node.bindings, node.scalarFields))
    return .double (← comparisonNumeric value).toDouble
  | .variable tokenDepth fieldName => do
    getField heap (← w.getFactAtDepth (← tokenDepth)) fieldName

/-- Whether an eval node lets a token pass. -/
def evalHolds (node : EvalNode) (heap : Heap) : Bool :=
  if node.expression = "" then true
  else
    match node.predicate with
    | some (name, arguments) =>
      ((arguments.mapM (evalArgument kb w node heap)).bind (kb.runtime.runtimePredicate name)).getD
        false
    | none =>
      (w.getFact.bind fun fact ↦ kb.runtime.evaluateRuntimeBooleanExpression heap node.expression
        fact (some (w, node.bindings, node.scalarFields))).getD false

/-- `EvalNode::left_activate`. -/
def evalLeft (node : EvalNode) (s : Session) : Session :=
  if type = .retract then
    if w ∈ (s.mem n).eval then
      emit w type (s.updateMem n fun mem ↦ { mem with eval := mem.eval.erase w })
    else s
  else if evalHolds kb w node s.heap then
    emit w type (s.updateMem n fun mem ↦ { mem with eval := mem.eval.insert w })
  else s

/-- `QueryTerminalNode::left_activate`. -/
def queryTerminalLeft (s : Session) : Session :=
  s.updateMem n fun mem ↦ { mem with
    results := if type = .assert then mem.results.insert w else mem.results.erase w }

/-- `left_activate` of a node that gets tokens and no facts. -/
def tokenNodeLeft (node : TokenNode) (s : Session) : Session :=
  match node with
  | .eval node => evalLeft kb n emit w type node s
  | .queryTerminal _ => queryTerminalLeft n w type s

end TokenNodes

/-! ### Through the network -/

/-- `left_activate`, with the number of levels left. -/
def leftActivate : ℕ → ℕ → TokenWME → PropagationType → Session → Session
  | 0, _, _, _, s => s
  | levels + 1, n, w, type, s =>
    let emit : Emission := fun w type s ↦
      (kb.network.children n).foldl (fun s child ↦ leftActivate levels child w type s) s
    match kb.network.kind n with
    | .crossProductJoin c => crossProductLeft kb n emit c w type s
    | .hashedJoin c leftHashKey _ => hashedLeft kb n emit c leftHashKey w type s
    | .condition kind c => conditionLeft kb n emit kind c w type s
    | .terminal rule bindings => terminalLeft kb logicalRetract n rule bindings w type s
    | .tokenNode node => tokenNodeLeft kb n emit w type node s
    | .alpha _ | .entryPoint => s

/-- The emission of a node: its children are left-activated in turn. -/
def emitFrom (levels n : ℕ) : Emission := fun w type s ↦
  (kb.network.children n).foldl (fun s child ↦
    leftActivate kb logicalRetract levels child w type s) s

/-- `left_activate_batch`, on tokens that are asserted. Only terminal nodes have a method of their own
for batches. -/
def leftActivateBatch (levels n : ℕ) (wmes : List TokenWME) (s : Session) : Session :=
  match kb.network.kind n with
  | .terminal rule bindings => terminalLeftBatch kb n rule bindings wmes s
  | _ => wmes.foldl (fun s w ↦ leftActivate kb logicalRetract levels n w .assert s) s

/-- The emission of a batch: the children of the node get it in turn. -/
def emitBatchFrom (levels n : ℕ) (wmes : List TokenWME) (s : Session) : Session :=
  (kb.network.children n).foldl (fun s child ↦
    leftActivateBatch kb logicalRetract levels child wmes s) s

/-- The right activation of a node of the beta network. -/
def betaRightActivate (n : ℕ) (fact : FactPtr) (type : PropagationType) (s : Session) : Session :=
  let emit := emitFrom kb logicalRetract kb.network.nodes.length n
  match kb.network.kind n with
  | .crossProductJoin c => crossProductRight kb n emit c fact type s
  | .hashedJoin c _ rightHashKey => hashedRight kb n emit c rightHashKey fact type s
  | .condition kind c => conditionRight kb n emit kind c fact type s
  | _ => s

/-- `right_activate_batch` of a node of the beta network, on facts that are asserted. -/
def betaRightActivateBatch (n : ℕ) (facts : List FactPtr) (s : Session) : Session :=
  let emit := emitFrom kb logicalRetract kb.network.nodes.length n
  match kb.network.kind n with
  | .crossProductJoin c =>
    crossProductRightBatch kb n (emitBatchFrom kb logicalRetract kb.network.nodes.length n) c facts s
  | .hashedJoin c _ rightHashKey => hashedRightBatch kb n emit c rightHashKey facts s
  | .condition kind c =>
    facts.foldl (fun s fact ↦ conditionRight kb n emit kind c fact .assert s) s
  | _ => s

def updatePassing (n : ℕ) (f : List ℤ → List ℤ) (s : Session) : Session :=
  s.updateMem n fun mem ↦ { mem with passingFacts := f mem.passingFacts }

/-- What `AlphaNode::right_activate` does with a fact: the new set of passing facts, and the
activation its children get, if any. -/
def alphaStep (c : ParsedConstraint) (passing : List ℤ) (fact : FactPtr) (type : PropagationType)
    (s : Session) : List ℤ × Option PropagationType :=
  let id := (s.heap fact).id
  let wasPassing := decide (id ∈ passing)
  if type = .retract then
    if wasPassing then (passing.filter (· ≠ id), some .retract) else (passing, none)
  else if type = .modify ∧ ¬ alphaConstraintAffected c s.currentModifiedFields then
    (passing, if wasPassing then some .modify else none)
  else if checkConstraint kb.runtime s.heap c fact then
    (passing.insert id, some (if type = .modify ∧ ¬ wasPassing then .assert else type))
  else if wasPassing then (passing.filter (· ≠ id), some .retract)
  else (passing, none)

/-- `right_activate`, with the number of levels left. -/
def rightActivate : ℕ → ℕ → FactPtr → PropagationType → Session → Session
  | 0, _, _, _, s => s
  | levels + 1, n, fact, type, s =>
    let toChildren (type : PropagationType) (s : Session) : Session :=
      (kb.network.children n).foldl (fun s child ↦ rightActivate levels child fact type s) s
    match kb.network.kind n with
    | .entryPoint => toChildren type s
    | .alpha c =>
      let (passing, next) := alphaStep kb c (s.mem n).passingFacts fact type s
      let s := updatePassing n (fun _ ↦ passing) s
      match next with
      | none => s
      | some type => toChildren type s
    | _ => betaRightActivate kb logicalRetract n fact type s

/-- `right_activate_batch` on facts that are asserted, with the number of levels left, and the vector
of facts that the caller has afterwards: an alpha node with one child filters the vector of its
caller in place. -/
def rightActivateBatch : ℕ → ℕ → List FactPtr → Session → List FactPtr × Session
  | 0, _, facts, s => (facts, s)
  | levels + 1, n, facts, s =>
    let toChildren (facts : List FactPtr) (s : Session) : List FactPtr × Session :=
      (kb.network.children n).foldl (fun (facts, s) child ↦
        rightActivateBatch levels child facts s) (facts, s)
    match kb.network.kind n with
    | .entryPoint => toChildren facts s
    | .alpha c =>
      let survivors := facts.filter (checkConstraint kb.runtime s.heap c)
      if survivors.isEmpty then (facts, s)
      else
        let s := updatePassing n (fun passing ↦ survivors.foldl (fun passing fact ↦
          passing.insert (s.heap fact).id) passing) s
        let (left, s) := toChildren survivors s
        if (kb.network.children n).length = 1 then (left, s) else (facts, s)
    | _ => (facts, betaRightActivateBatch kb logicalRetract n facts s)

end RulesForge
