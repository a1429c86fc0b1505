import RulesForge.Engine.Session
import RulesForge.Library.Ends

/-!
# Accumulate nodes

`AccumulateNode` (`src/rete/rete_node_accumulate.inc` and the helpers before it in
`src/rete/rete_node.cpp`): for every token on its left the node keeps the aggregate of the
matching facts on its right in a **result fact** of its own, which it gives to working memory and,
joined to the token, to its children.

The node stands above nodes of a compiled network, its `children`; the tokens it gets from the
node before it are the arguments of `AccumulateNode.leftActivate`. An operation of the session
may throw, and the node then stops where it is. The functions are those with a kernel of their own;
registered accumulators, and the average, are left out.
-/

namespace RulesForge

inductive AccumulateFunction where
  | count | sum | min | max | collect | collectList | collectSet
  deriving DecidableEq, Repr

/-- Whether a function takes the value of a field or an expression. -/
def AccumulateFunction.isNumeric : AccumulateFunction → Bool
  | sum | min | max => true
  | _ => false

/-- `ParsedAccumulate` after compilation, for the functions with a kernel: a value expression
takes the place of the field, and only where there is a value to take. -/
structure ParsedAccumulate where
  function : AccumulateFunction
  accumulateFieldName : String := ""
  valueExpression : Option String := none
  inlineBindingToField : ScalarFields := []
  hasKernel : if function.isNumeric then valueExpression.isSome ∨ accumulateFieldName ≠ ""
    else valueExpression = none := by decide

/-- A sum of the prices of facts takes the value of a field. -/
theorem price_hasKernel :
    if AccumulateFunction.sum.isNumeric then (none : Option String).isSome ∨ "price" ≠ ""
      else (none : Option String) = none := by
  decide

structure AccumulateNode where
  info : ParsedAccumulate
  resultFactType : String
  condition : JoinCondition
  children : List ℕ

structure LeftMemoryItem where
  wme : TokenWME
  resultFact : FactPtr
  numericSum : Double := .ofInt 0
  numericExtreme : Double := .ofInt 0
  aggregateCount : ℤ := 0
  sumIsDouble : Bool := false
  numericValues : List Double := []
  contributingFactsList : List FactPtr := []
  contributingFactsSet : List FactPtr := []

structure AccumulateMem where
  left : List (TokenWME × LeftMemoryItem) := []
  right : List (ℤ × FactPtr) := []

/-! ### Kernels -/

namespace ParsedAccumulate

variable (info : ParsedAccumulate) (env : RuntimeEnv) (heap : Heap) (bindings : Bindings)

/-- `get_accumulate_value`. -/
def getAccumulateValue (token : TokenWME) (fact : FactPtr) : Option ConstraintValue :=
  if info.function = .count ∧ info.valueExpression.isNone ∧ info.accumulateFieldName = "" then
    some (.int64 1)
  else
    match info.valueExpression with
    | some expression => env.evaluateRuntimeExpression heap expression fact
        (some (token, bindings, info.inlineBindingToField))
    | none =>
      if info.accumulateFieldName = "" then none
      else getField heap fact info.accumulateFieldName

/-- `uses_collect_accumulate`. -/
def usesCollectAccumulate : Bool :=
  match info.function with
  | .collect | .collectList | .collectSet => true
  | _ => false

/-- A value as a double, with whether it was one. -/
def numericValue : ConstraintValue → Option (Double × Bool)
  | .int64 i => some (.ofInt i, false)
  | .double d => some (d, true)
  | _ => none

/-- `std::min` and `std::max`. -/
def pickExtreme (x y : Double) : Double :=
  if info.function = .min then (if y.lt x then y else x) else (if x.lt y then y else x)

/-- The extreme of the stored values, zero where there are none. -/
def extremeOf : List Double → Double
  | [] => .ofInt 0
  | x :: xs => xs.foldl info.pickExtreme x

/-- `apply_numeric_accumulate`: the item with a fact's value added or, where `forward` is false,
taken away, and whether the result is published. -/
def applyNumericAccumulate (forward : Bool) (fact : FactPtr) (item : LeftMemoryItem) :
    LeftMemoryItem × Bool :=
  match info.function with
  | .count => ({ item with aggregateCount := item.aggregateCount + if forward then 1 else -1 }, true)
  | .sum =>
    match (info.getAccumulateValue env heap bindings item.wme fact).bind numericValue with
    | none => (item, false)
    | some (d, isDouble) =>
      ({ item with
        numericSum := item.numericSum.add (if forward then d else d.neg)
        sumIsDouble := item.sumIsDouble || isDouble }, true)
  | _ =>
    match (info.getAccumulateValue env heap bindings item.wme fact).bind numericValue with
    | none => (item, false)
    | some (d, isDouble) =>
      let values := if forward then item.numericValues ++ [d] else item.numericValues.erase d
      ({ item with
        sumIsDouble := item.sumIsDouble || isDouble
        numericValues := values
        numericExtreme := info.extremeOf values }, true)

/-- `apply_collect_accumulate`. -/
def applyCollectAccumulate (forward : Bool) (fact : FactPtr) (item : LeftMemoryItem) :
    LeftMemoryItem × Bool :=
  if info.function = .collectSet then
    if forward then
      ({ item with contributingFactsSet := item.contributingFactsSet.insert fact },
        decide (fact ∉ item.contributingFactsSet))
    else
      ({ item with contributingFactsSet := item.contributingFactsSet.erase fact },
        decide (fact ∈ item.contributingFactsSet))
  else if forward then
    ({ item with contributingFactsList := item.contributingFactsList ++ [fact] }, true)
  else
    ({ item with contributingFactsList := item.contributingFactsList.erase fact },
      decide (fact ∈ item.contributingFactsList))

/-- The kernel of a function. -/
def applyAccumulate (forward : Bool) (fact : FactPtr) (item : LeftMemoryItem) :
    LeftMemoryItem × Bool :=
  if info.usesCollectAccumulate then info.applyCollectAccumulate forward fact item
  else info.applyNumericAccumulate env heap bindings forward fact item

/-- The item of a token without any facts. -/
def resetItem (item : LeftMemoryItem) : LeftMemoryItem :=
  { wme := item.wme, resultFact := item.resultFact }

/-- `numeric_accumulate_result`. -/
def numericAccumulateResult (item : LeftMemoryItem) : ConstraintValue :=
  match info.function with
  | .count => .int64 item.aggregateCount
  | .min | .max =>
    if item.sumIsDouble then .double item.numericExtreme else .int64 item.numericExtreme.toInt
  | _ => if item.sumIsDouble then .double item.numericSum else .int64 item.numericSum.toInt

/-- The number published beside the result. -/
def resultNumber : ConstraintValue → Double
  | .int64 i => .ofInt i
  | .double d => d
  | _ => .ofInt 0

/-- The fields that the modifier of `update_and_propagate_result` assigns. -/
def resultFields (item : LeftMemoryItem) : List (String × ConstraintValue) :=
  if info.usesCollectAccumulate then
    [("result", .factList (if info.function = .collectSet then item.contributingFactsSet
      else item.contributingFactsList))]
  else
    let result := info.numericAccumulateResult item
    let number := resultNumber result
    [("result", result), ("intValue", .int64 number.toInt), ("longValue", .int64 number.toInt),
      ("doubleValue", .double number), ("floatValue", .double number), ("value", .double number)]

/-- The fields of a fact after the modifier. -/
def assignFields (fields assigned : List (String × ConstraintValue)) :
    List (String × ConstraintValue) :=
  assigned.foldl (fun fields entry ↦ AssocMap.insert entry.1 entry.2 fields) fields

end ParsedAccumulate

/-! ### The node in its session -/

/-- Whether a node keeps a token that it is asserted. -/
def keepsToken (kb : KnowledgeBase) (n : ℕ) (w : TokenWME) (s : Session) : Bool :=
  match kb.network.kind n with
  | .hashedJoin _ leftHashKey _ => (tokenKey s.heap leftHashKey w).isSome
  | .tokenNode (.eval node) => evalHolds kb w node s.heap
  | .alpha _ | .entryPoint => false
  | _ => true

/-- A session with the memory of an accumulate node, and the results that a child of the node has
kept. These are history: no part of the code reads them. -/
structure AccumulateSession where
  session : Session
  mem : AccumulateMem := {}
  kept : List TokenWME := []

/-- An operation of the session, which may throw. -/
def callSession (f : Session → Session × Option SessionError) :
    EStateM SessionError AccumulateSession Unit := fun s ↦
  let r := f s.session
  match r.2 with
  | none => .ok () { s with session := r.1 }
  | some e => .error e { s with session := r.1 }

def updateAccumulate (f : AccumulateMem → AccumulateMem) :
    EStateM SessionError AccumulateSession Unit :=
  modify fun s ↦ { s with mem := f s.mem }

namespace AccumulateNode

variable (kb : KnowledgeBase) (steps : ℕ) (allocate : Session → FactPtr) (node : AccumulateNode)

/-- A child gets a token. -/
def activateChild (w : TokenWME) (type : PropagationType) (child : ℕ) (s : AccumulateSession) :
    AccumulateSession :=
  { s with
    session := RulesForge.leftActivate kb (logicalRetract kb steps) (kb.network.nodes.length + 1)
      child w type s.session
    kept := if type = .assert ∧ keepsToken kb child w s.session then w :: s.kept else s.kept }

/-- The children get a token in turn. -/
def activateChildren (w : TokenWME) (type : PropagationType) :
    EStateM SessionError AccumulateSession Unit :=
  modify fun s ↦ node.children.foldl (fun s child ↦ activateChild kb steps w type child s) s

/-- What the children do to the session. -/
theorem foldl_activateChild (w : TokenWME) (type : PropagationType) (children : List ℕ)
    (s : AccumulateSession) :
    let s' := children.foldl (fun s child ↦ activateChild kb steps w type child s) s
    s'.mem = s.mem ∧ s'.session = children.foldl (fun s child ↦
      RulesForge.leftActivate kb (logicalRetract kb steps) (kb.network.nodes.length + 1) child w
        type s) s.session := by
  induction children generalizing s with
  | nil => exact ⟨rfl, rfl⟩
  | cons child children ih => exact ih (activateChild kb steps w type child s)

/-- `get_or_create_wme`. -/
def resultWme (item : LeftMemoryItem) : EStateM SessionError AccumulateSession TokenWME := do
  let (w, session) := (← get).session.getOrCreateWme item.wme item.resultFact
  modify fun s ↦ { s with session := session }
  return w

/-- `update_and_propagate_result`. -/
def updateAndPropagateResult (item : LeftMemoryItem) :
    EStateM SessionError AccumulateSession Unit := do
  let fact := (← get).session.heap item.resultFact
  if fact.id = 0 then
    callSession fun s ↦ (writeFields item.resultFact
      (ParsedAccumulate.assignFields fact.fields (node.info.resultFields item)) s, none)
    callSession (addFact kb steps item.resultFact)
    let w ← resultWme item
    node.activateChildren kb steps w .assert
  else
    let w ← resultWme item
    node.activateChildren kb steps w .retract
    callSession fun s ↦ updateFact kb steps item.resultFact
      (ParsedAccumulate.assignFields (s.heap item.resultFact).fields (node.info.resultFields item)) s
    node.activateChildren kb steps w .assert

/-- The facts of the right memory that match a token are added to its item. -/
def accumulateRight (s : AccumulateSession) (item : LeftMemoryItem) : LeftMemoryItem :=
  s.mem.right.foldl (fun item entry ↦
    if checkCondition kb node.condition s.session item.wme entry.2 then
      (node.info.applyAccumulate kb.runtime s.session.heap node.condition.bindings true entry.2
        item).1
    else item) item

/-- `create_fact`. -/
def createResultFact (type : String) (s : Session) : Session × Option SessionError :=
  match kb.canonicalizeTypeName type with
  | none => (s, some .ambiguousType)
  | some name => ({ s with heap := Function.update s.heap (allocate s) { type := name } }, none)

/-- `AccumulateNode::left_activate`. -/
def leftActivate (w : TokenWME) (type : PropagationType) :
    EStateM SessionError AccumulateSession Unit := do
  let s ← get
  if type = .retract then
    match s.mem.left.lookup w with
    | none => pure ()
    | some item =>
      callSession (retractFact kb (logicalRetract kb steps) item.resultFact)
      updateAccumulate fun mem ↦ { mem with left := AssocMap.erase w mem.left }
  else if AssocMap.contains w s.mem.left then pure ()
  else
    let resultFact := allocate s.session
    callSession (createResultFact kb allocate node.resultFactType)
    let s ← get
    let item := node.accumulateRight kb s { wme := w, resultFact := resultFact }
    updateAccumulate fun mem ↦ { mem with left := AssocMap.insert w item mem.left }
    node.updateAndPropagateResult kb steps item

/-- One item after a fact has come or gone, published where it has changed. -/
def updateItem (forward : Bool) (fact : FactPtr) (w : TokenWME) :
    EStateM SessionError AccumulateSession Unit := do
  let s ← get
  match s.mem.left.lookup w with
  | none => pure ()
  | some item =>
    if checkCondition kb node.condition s.session w fact then
      let (item, changed) := node.info.applyAccumulate kb.runtime s.session.heap
        node.condition.bindings forward fact item
      updateAccumulate fun mem ↦ { mem with left := AssocMap.insert w item mem.left }
      if changed then node.updateAndPropagateResult kb steps item

/-- The facts of a batch that match a token are added to its item, and whether the result is
published. -/
def accumulateBatch (s : Session) (facts : List FactPtr) (item : LeftMemoryItem) :
    LeftMemoryItem × Bool :=
  facts.foldl (fun (item, changed) fact ↦
    if checkCondition kb node.condition s item.wme fact then
      let r := node.info.applyAccumulate kb.runtime s.heap node.condition.bindings true fact item
      (r.1, changed || r.2)
    else (item, changed)) (item, false)

/-- One item after a batch has come, published once where it has changed. -/
def updateItemBatch (facts : List FactPtr) (w : TokenWME) :
    EStateM SessionError AccumulateSession Unit := do
  let s ← get
  match s.mem.left.lookup w with
  | none => pure ()
  | some item =>
    let (item, changed) := node.accumulateBatch kb s.session facts item
    updateAccumulate fun mem ↦ { mem with left := AssocMap.insert w item mem.left }
    if changed then node.updateAndPropagateResult kb steps item

/-- One item computed anew from the right memory, and published. -/
def rebuildItem (w : TokenWME) : EStateM SessionError AccumulateSession Unit := do
  let s ← get
  match s.mem.left.lookup w with
  | none => pure ()
  | some item =>
    let item := node.accumulateRight kb s (ParsedAccumulate.resetItem item)
    updateAccumulate fun mem ↦ { mem with left := AssocMap.insert w item mem.left }
    node.updateAndPropagateResult kb steps item

/-- `AccumulateNode::right_activate`. The node's own result facts are skipped. A modification
computes every item anew; the items a fact comes to or goes from are those it matches now. -/
def rightActivate (fact : FactPtr) (type : PropagationType) :
    EStateM SessionError AccumulateSession Unit := do
  let s ← get
  let id := (s.session.heap fact).id
  let tokens := s.mem.left.map Prod.fst
  if s.mem.left.any fun entry ↦ entry.2.resultFact = fact then pure ()
  else
    match type with
    | .modify =>
      updateAccumulate fun mem ↦ { mem with right := AssocMap.insert id fact mem.right }
      tokens.forM (node.rebuildItem kb steps)
    | .assert =>
      updateAccumulate fun mem ↦ { mem with right := AssocMap.insert id fact mem.right }
      tokens.forM (node.updateItem kb steps true fact)
    | .retract =>
      if AssocMap.contains id s.mem.right then
        tokens.forM (node.updateItem kb steps false fact)
        updateAccumulate fun mem ↦ { mem with right := AssocMap.erase id mem.right }

/-- `AccumulateNode::right_activate_batch`: all facts are stored before the first item is updated.
It does not look for the node's own result facts. -/
def rightActivateBatch (facts : List FactPtr) : EStateM SessionError AccumulateSession Unit := do
  let s ← get
  let tokens := s.mem.left.map Prod.fst
  updateAccumulate fun mem ↦ { mem with
    right := facts.foldl (fun right fact ↦
      AssocMap.insert (s.session.heap fact).id fact right) mem.right }
  tokens.forM (node.updateItemBatch kb steps facts)

end AccumulateNode

end RulesForge
