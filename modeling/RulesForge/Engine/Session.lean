import RulesForge.Rete.Activation

/-!
# Session operations

`add_fact`, `add_facts`, `retract_fact`, `update_fact` and `propagate_modify`, and `insert_into`,
`insert_event_into` and `retract_from` for named entry points
(`src/engine/stateful_session.cpp`), with working memory (`include/engine/working_memory.hpp`)
and the start of a session. Working memory does not record the entry point of a fact.

An operation returns the session it leaves and the exception it throws, if any. Retracting a
fact can end matches that justified other facts, which are then retracted in turn: the
cascade is cut off after a number of steps given as an argument.
-/

namespace RulesForge

/-! ### Working memory -/

namespace WorkingMemory

def get (wm : WorkingMemory) (id : ℤ) : Option FactPtr := wm.facts.lookup id

def contains (wm : WorkingMemory) (id : ℤ) : Bool := AssocMap.contains id wm.facts

def remove (wm : WorkingMemory) (id : ℤ) : WorkingMemory :=
  { wm with facts := AssocMap.erase id wm.facts }

end WorkingMemory

/-- `assign_id` on the heap and the counter: a fact without id gets the next one, and the
counter stays above every id it has seen. -/
def assignId (fact : FactPtr) (state : Heap × ℤ) : Heap × ℤ :=
  let (heap, nextId) := state
  if (heap fact).id = 0 then
    (Function.update heap fact { heap fact with id := nextId }, nextId + 1)
  else if nextId ≤ (heap fact).id then (heap, (heap fact).id + 1)
  else state

/-- The facts in the fact lists of a fact's fields. -/
def nestedFacts (fact : Fact) : List FactPtr :=
  fact.fields.flatMap fun field ↦
    match field.2 with
    | .factList facts => facts.filter (· ≠ 0)
    | _ => []

/-- `assign_nested_ids`. -/
def assignNestedIds : ℕ → FactPtr → Heap × ℤ → Heap × ℤ
  | 0, _, state => state
  | depth + 1, fact, state =>
    let state := assignId fact state
    (nestedFacts (state.1 fact)).foldl (fun state p ↦ assignNestedIds depth p state) state

/-! ### Operations -/

/-- The exceptions of a session, without their texts. -/
inductive SessionError where
  | sessionInconsistent
  | ambiguousType
  | schemaValidation
  | unknownEntryPoint
  | typeNotAccepted
  deriving DecidableEq, Repr

variable (kb : KnowledgeBase)

/-- The entry point of a fact's type gets the fact, if there is one. -/
def activateEntryPoint (logicalRetract : TokenWME → Session → Session) (fact : FactPtr)
    (type : PropagationType) (s : Session) : Session :=
  match kb.network.alphaEntryPoints.lookup (s.heap fact).type with
  | none => s
  | some entry =>
    rightActivate kb logicalRetract (kb.network.nodes.length + 1) entry fact type s

/-- Whether a token's chain holds the fact of an id. -/
def wmeReferencesFact (factId : FactPtr → ℤ) (w : TokenWME) (id : ℤ) : Bool :=
  w.facts.any fun p ↦ p ≠ 0 ∧ factId p = id

/-- The clean-up of the token cache after a retraction: buckets that hold a token with the
fact are dropped, and every token in them is reported. -/
def cleanWmeCache (logicalRetract : TokenWME → Session → Session) (id : ℤ) (s : Session) :
    Session :=
  let hashes := (s.wmeCache.filter fun w ↦ wmeReferencesFact (factIds s.heap) w id).map
    (·.hash kb.hashes)
  let dropped := s.wmeCache.filter fun w ↦ w.hash kb.hashes ∈ hashes
  let s := dropped.foldl (fun s w ↦ logicalRetract w s) s
  { s with wmeCache := s.wmeCache.filter fun w ↦ w.hash kb.hashes ∉ hashes }

/-- A fact leaves working memory, with the activations of its tokens. -/
def leaveFact (p : FactPtr) (s : Session) : Session :=
  let id := (s.heap p).id
  { s.note (.left fun w ↦ wmeReferencesFact (factIds s.heap) w id) with
    workingMemory := s.workingMemory.remove id
    agenda := s.agenda.removeActivationsWithFactId (factIds s.heap) id
    tms := s.tms.onFactRetracted id }

/-- The retraction of a fact that is in working memory, outside of a transaction: `p` is the
fact of working memory. -/
def removeFact (logicalRetract : TokenWME → Session → Session) (p : FactPtr) (s : Session) :
    Session :=
  cleanWmeCache kb logicalRetract (s.heap p).id
    (activateEntryPoint kb logicalRetract p .retract (leaveFact p s))

/-- `retract_fact`. A fact that is not in working memory is ignored; inside a transaction the
retraction waits for the commit. -/
def retractFact (logicalRetract : TokenWME → Session → Session) (fact : FactPtr) (s : Session) :
    Session × Option SessionError :=
  if fact = 0 then (s, none)
  else if !s.isConsistent then (s, some .sessionInconsistent)
  else
    match s.workingMemory.get (s.heap fact).id, s.transaction with
    | none, _ => (s, none)
    | some p, some t =>
      ({ s with transaction := some { t with retractedFacts := t.retractedFacts ++ [p] } }, none)
    | some p, none => (removeFact kb logicalRetract p s, none)

/-- `logical_retract`: the facts a token justified alone are retracted, with what follows. -/
def logicalRetract : ℕ → TokenWME → Session → Session
  | 0, _, s => s
  | steps + 1, w, s =>
    let (tms, ids) := s.tms.removeJustificationsByToken w
    let facts := ids.filterMap s.workingMemory.get
    facts.foldl (fun s fact ↦ (retractFact kb (logicalRetract steps) fact s).1) { s with tms := tms }

/-- The ids a fact and the facts nested in it get when it is added. -/
def assignIds (fact : FactPtr) (s : Session) : Session :=
  let state : Heap × ℤ := (s.heap, s.workingMemory.nextId)
  let state := assignNestedIds kb.nestingLimit fact (assignId fact state)
  { s with heap := state.1, workingMemory := { s.workingMemory with nextId := state.2 } }

/-- A fact with an id enters working memory. -/
def insertWorkingMemory (fact : FactPtr) (s : Session) : Session :=
  let id := (s.heap fact).id
  { s.note (.entered fact) with
    workingMemory := { s.workingMemory with
      facts := AssocMap.insert id fact s.workingMemory.facts }
    transaction := s.transaction.map fun t ↦ { t with insertedFacts := t.insertedFacts ++ [id] } }

/-- The fact's type is replaced by a name. -/
def writeType (fact : FactPtr) (name : String) (s : Session) : Session :=
  { s with heap := Function.update s.heap fact { s.heap fact with type := name } }

/-- `add_fact`. -/
def addFact (steps : ℕ) (fact : FactPtr) (s : Session) : Session × Option SessionError :=
  if fact = 0 then (s, none)
  else if !s.isConsistent then (s, some .sessionInconsistent)
  else
    match kb.canonicalizeTypeName (s.heap fact).type with
    | none => (s, some .ambiguousType)
    | some name =>
      let s := writeType fact name s
      if !kb.validate (s.heap fact) then (s, some .schemaValidation)
      else
        let s := insertWorkingMemory fact (assignIds kb fact s)
        (activateEntryPoint kb (logicalRetract kb steps) fact .assert s, none)

/-- The names and the check of the facts of a batch, in turn, up to the first exception. -/
def checkFacts (facts : List FactPtr) (s : Session) : Session × Option SessionError :=
  match facts with
  | [] => (s, none)
  | fact :: facts =>
    match kb.canonicalizeTypeName (s.heap fact).type with
    | none => (s, some .ambiguousType)
    | some name =>
      let s := writeType fact name s
      if !kb.validate (s.heap fact) then (s, some .schemaValidation) else checkFacts facts s

/-- The facts of a batch by their types, in the order of the names. -/
def factsByType (heap : Heap) (facts : List FactPtr) : List (String × List FactPtr) :=
  facts.foldl (fun groups fact ↦
    let type := (heap fact).type
    SortedMap.insert type ((groups.lookup type).getD [] ++ [fact]) groups) []

/-- The facts of a batch enter working memory, each with its ids. -/
def enterFacts (facts : List FactPtr) (s : Session) : Session :=
  facts.foldl (fun s fact ↦ insertWorkingMemory fact (assignIds kb fact s)) s

/-- The facts of each type go to the entry point of the type, if there is one. -/
def activateBatches (steps : ℕ) (groups : List (String × List FactPtr)) (s : Session) : Session :=
  groups.foldl (fun s (type, facts) ↦
    match kb.network.alphaEntryPoints.lookup type with
    | none => s
    | some entry =>
      (rightActivateBatch kb (logicalRetract kb steps) (kb.network.nodes.length + 1) entry facts s).2) s

/-- `add_facts`: all facts enter working memory before the first one is propagated. (A fact without
fact lists is not searched for nested facts, where there are none.) -/
def addFacts (steps : ℕ) (facts : List FactPtr) (s : Session) : Session × Option SessionError :=
  if facts = [] then (s, none)
  else if !s.isConsistent then (s, some .sessionInconsistent)
  else
    let facts := facts.filter (· ≠ 0)
    match checkFacts kb facts s with
    | (s, some e) => (s, some e)
    | (s, none) =>
      let s := enterFacts kb facts s
      (activateBatches kb steps (factsByType s.heap facts) s, none)

/-- The fields of a fact are replaced. -/
def writeFields (fact : FactPtr) (fields : List (String × ConstraintValue)) (s : Session) :
    Session :=
  { s with heap := Function.update s.heap fact { s.heap fact with fields := fields } }

/-- `update_fact`, the modifier being the assignment of new fields. -/
def updateFact (steps : ℕ) (fact : FactPtr) (fields : List (String × ConstraintValue))
    (s : Session) : Session × Option SessionError :=
  if fact = 0 ∨ !s.workingMemory.contains (s.heap fact).id then (s, none)
  else if !s.isConsistent then (s, some .sessionInconsistent)
  else
    (activateEntryPoint kb (logicalRetract kb steps) fact .modify (writeFields fact fields s), none)

/-- `propagate_modify`, after the fields of the fact have been changed. -/
def propagateModify (steps : ℕ) (fact : FactPtr) (hint : Option ModifiedFieldsHint) (s : Session) :
    Session :=
  if fact = 0 ∨ !s.workingMemory.contains (s.heap fact).id then s
  else
    { activateEntryPoint kb (logicalRetract kb steps) fact .modify
        { s with currentModifiedFields := hint } with currentModifiedFields := none }

/-! ### Named entry points -/

/-- `require_entry_point_route`. -/
def requireEntryPointRoute (streamName factType : String) : Except SessionError ℕ :=
  match kb.network.namedEntryPoints.lookup streamName with
  | none => .error .unknownEntryPoint
  | some types =>
    match types.lookup factType with
    | none => .error .typeNotAccepted
    | some entry => .ok entry

/-- What `insert_into` and `insert_event_into` have in common: `enter` is the entrance to working
memory. -/
def insertThrough (enter : FactPtr → Session → Session) (steps : ℕ) (streamName : String)
    (fact : FactPtr) (s : Session) : Session × Option SessionError :=
  if fact = 0 then (s, none)
  else if !s.isConsistent then (s, some .sessionInconsistent)
  else
    match kb.canonicalizeTypeName (s.heap fact).type with
    | none => (s, some .ambiguousType)
    | some name =>
      let s := writeType fact name s
      if !kb.validate (s.heap fact) then (s, some .schemaValidation)
      else
        match requireEntryPointRoute kb streamName name with
        | .error e => (s, some e)
        | .ok entry =>
          let s := enter fact (assignIds kb fact s)
          (rightActivate kb (logicalRetract kb steps) (kb.network.nodes.length + 1) entry fact
            .assert s, none)

/-- `insert_into`. -/
def insertInto : ℕ → String → FactPtr → Session → Session × Option SessionError :=
  insertThrough kb insertWorkingMemory

/-- `insert_event_into`, which a transaction does not record. The time of the event is left out:
only windows and temporal constraints read it. -/
def insertEventInto : ℕ → String → FactPtr → Session → Session × Option SessionError :=
  insertThrough kb fun fact s ↦ { insertWorkingMemory fact s with transaction := s.transaction }

/-- `retract_from`. Unlike `retract_fact` it does not wait for the end of a transaction, and it
leaves the token cache alone. -/
def retractFrom (steps : ℕ) (streamName : String) (fact : FactPtr) (s : Session) :
    Session × Option SessionError :=
  if fact = 0 then (s, none)
  else if !s.isConsistent then (s, some .sessionInconsistent)
  else
    match s.workingMemory.get (s.heap fact).id with
    | none => (s, none)
    | some p =>
      match requireEntryPointRoute kb streamName (s.heap p).type with
      | .error e => (s, some e)
      | .ok entry =>
        (rightActivate kb (logicalRetract kb steps) (kb.network.nodes.length + 1) entry p
          .retract (leaveFact p s), none)

/-! ### The start of a session -/

/-- `prime_network_state`: rules without conditions are activated, and the roots of the beta
network get the root token. -/
def primeNetworkState (steps : ℕ) (s : Session) : Session :=
  let s := (kb.rules.zipIdx).foldl (fun s (rule, i) ↦
    if rule.enabled && rule.hasNoConditions then s.addActivation kb (activationOf kb i none .root)
    else s) s
  kb.network.betaRootNodes.foldl (fun s n ↦
    leftActivate kb (logicalRetract kb steps) kb.network.nodes.length n .root .assert s) s

/-- A new session over a heap. -/
def newSession (steps : ℕ) (heap : Heap) : Session :=
  primeNetworkState kb steps { heap := heap }

end RulesForge
