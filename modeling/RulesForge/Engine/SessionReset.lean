import RulesForge.Engine.Accumulate
import RulesForge.Library.CheckedProgram

/-!
# Resetting a session

`StatefulSession::reset` re-initialises the members of a session one by one and primes the network
again, as `KnowledgeBase::create_session` does for a new one. The members are listed here in full;
the operations and the activations of nodes are programs over them, of which it matters only that
they look at the validation mode in one place, `validate_fact_for_insert`.

A new session is primed before a validation mode can be set, a session that is reset in the mode
it has. Where that mode is strict and priming inserts a fact that the schema rejects, `reset`
throws (`resetThrows`): the result fact of an accumulate node at the root of the network is such a
fact when its type is not declared. Everywhere else a session after `reset` is a new session
(`reset_iff`).
-/

namespace RulesForge

/-! ### The members of a session -/

/-- The state of one PHREAK segment. -/
structure SegmentMem where
  linked : Bool := true
  dirtyMask : ℕ := 0
  dirtyEpoch : ℕ := 0

/-- The state of one PHREAK path. -/
structure PathMem where
  dirty : Bool := false
  dirtySegmentsMask : ℕ := 0
  evalEpoch : ℕ := 0

/-- The memory of a query-call node: its tokens, and the tokens made from each of them. -/
structure QueryCallMem where
  left : List (TokenWME × PropagationType) := []
  parentToChildren : List (TokenWME × List TokenWME) := []

/-- The memories of the nodes that are not in `NodeMemory`, and the facts whose evaluation a node
has put off. -/
structure OtherMemory where
  segment : ℕ → SegmentMem := fun _ ↦ {}
  path : ℕ → PathMem := fun _ ↦ {}
  accumulate : ℕ → AccumulateMem := fun _ ↦ {}
  queryTerminal : ℕ → List TokenWME := fun _ ↦ []
  queryCall : ℕ → QueryCallMem := fun _ ↦ {}
  eval : ℕ → List TokenWME := fun _ ↦ []
  unnest : ℕ → List (TokenWME × List TokenWME) := fun _ ↦ []
  window : ℕ → List FactPtr := fun _ ↦ []
  pendingFacts : ℕ → List FactPtr := fun _ ↦ []

/-- The members of a session that its operations read and write, beside its listeners, validation
mode and tracing switch. `session` has the facts and the pool of tokens, the memories of alpha,
join, condition and terminal nodes, the token cache, working memory, the agenda, the
justifications, the hint, the transaction and the flag of consistency. What only metrics read is
left out. -/
structure SessionState where
  session : Session
  otherMemory : OtherMemory := {}
  factArena : List FactPtr := []
  retainedSharedFacts : List (ℤ × FactPtr) := []
  currentActivation : Option Activation := none
  haltRequested : Bool := false
  deferredMode : Bool := false
  globals : List (String × ConstraintValue) := []
  rulesFiredTotal : ℕ := 0
  factsInsertedTotal : ℕ := 0
  factsRetractedTotal : ℕ := 0
  phreakEpoch : ℕ := 0
  eventTimeWatermarkMs : Option ℤ := none
  eventTimeMode : Bool := false
  factEventTimesMs : List (FactPtr × ℤ) := []

inductive ValidationMode where
  | none | warn | strict
  deriving DecidableEq, Repr

structure StatefulSession where
  state : SessionState
  executionActive : Bool := false
  listeners : List ℕ := []
  validationMode : ValidationMode := .none
  tracing : Bool := false

/-- What a session finds when it is made: the facts of the client, the address at which its pool
of tokens starts, and the time. -/
structure Surroundings where
  heap : Heap
  nextToken : ℕ
  now : ℤ

def SessionState.surroundings (s : SessionState) : Surroundings :=
  ⟨s.session.heap, s.session.nextToken, s.session.now⟩

/-! ### Programs -/

/-- A program over the members of a session; what it submits is validated as a fact to insert. -/
abbrev SessionProgram := CheckedProgram SessionState Fact SessionError

structure ParsedGlobal where
  type : String
  name : String

/-- The operations of a client. -/
inductive ClientCall where
  | addFact (fact : FactPtr)
  | addFacts (facts : List FactPtr)
  | updateFact (fact : FactPtr) (fields : List (String × ConstraintValue))
  | retractFact (fact : FactPtr)
  | setGlobal (name : String) (value : ConstraintValue)
  | executeQuery (queryName : String) (args : List FactPtr)

/-- What the sessions of a knowledge base are made from. The activation of a node by the root token
and the operations are programs; `rows` are the rows of a query that has been executed. -/
structure SessionCode where
  kb : KnowledgeBase
  parsedGlobals : List ParsedGlobal := []
  betaRootNodes : List ℕ
  leftActivateRoot : ℕ → SessionProgram
  operation : ClientCall → SessionProgram
  rows : ClientCall → SessionState → List (List FactPtr)

/-- The check of `validate_fact_for_insert`: only a strict session rejects. -/
def ValidationMode.passes (mode : ValidationMode) (code : SessionCode) (fact : Fact) : Bool :=
  mode ≠ .strict || code.kb.validate fact

/-! ### Creation -/

/-- `normalize_type_name`. -/
def normalizeTypeName (type : String) : List Char :=
  (type.toList.filter fun c ↦ !isSpace c).map Char.toLower

/-- `default_global_value`. -/
def defaultGlobalValue (declaredType : String) : ConstraintValue :=
  let normalized := normalizeTypeName declaredType
  let is (name : String) : Bool :=
    normalized = name.toList || ('.' :: name.toList).isSuffixOf normalized
  if is "list" then .typedList []
  else if is "set" then .valueSet []
  else if is "map" then .valueMap []
  else .nil

/-- The declared globals with their defaults; a name that is there is kept. -/
def defaultGlobals (globals : List ParsedGlobal) : List (String × ConstraintValue) :=
  globals.foldl (fun m g ↦ AssocMap.emplace g.name (defaultGlobalValue g.type) m) []

/-- The constructor. -/
def constructSession (code : SessionCode) (place : Surroundings) : SessionState where
  session := { heap := place.heap, nextToken := place.nextToken, now := place.now }
  globals := defaultGlobals code.parsedGlobals

/-- `prime_network_state`. -/
def primeSession (code : SessionCode) : SessionProgram :=
  let rules := code.kb.rules.zipIdx.filter fun (rule, _) ↦ rule.enabled && rule.hasNoConditions
  .all ((rules.map fun (_, i) ↦
      .act (fun s ↦ { s with
        session := s.session.addActivation code.kb (activationOf code.kb i none .root) }) .done) ++
    code.betaRootNodes.map code.leftActivateRoot)

/-- A session is primed in its validation mode. -/
def StatefulSession.prime (code : SessionCode) (s : StatefulSession) :
    StatefulSession × Option SessionError :=
  let r := (primeSession code).run (s.validationMode.passes code) .schemaValidation s.state
  ({ s with state := r.1 }, r.2)

/-- `KnowledgeBase::create_session`. -/
def createSession (code : SessionCode) (place : Surroundings) :
    StatefulSession × Option SessionError :=
  StatefulSession.prime code { state := constructSession code place }

/-- The listeners, the validation mode and the tracing switch of another session are set. -/
def StatefulSession.configuredAs (s s' : StatefulSession) : StatefulSession :=
  { s with
    listeners := s'.listeners
    validationMode := s'.validationMode
    tracing := s'.tracing }

/-! ### Reset -/

/-- Why `reset` throws. -/
inductive ResetError where
  | duringExecution
  | session (e : SessionError)
  deriving DecidableEq, Repr

/-- The assignments of `reset`, in order. A new `NetworkMemory` with its slots, and a truth
maintenance system that has been cleared, are the default ones. The pool of tokens and the facts
of the client stay. -/
def SessionState.reinitialise (code : SessionCode) (s : SessionState) : SessionState :=
  let s := { s with haltRequested := false }
  let s := { s with deferredMode := false }
  let s := { s with session := { s.session with transaction := none } }
  let s := { s with session := { s.session with isConsistent := true } }
  let s := { s with currentActivation := none }
  let s := { s with session := { s.session with currentModifiedFields := none } }
  let s := { s with eventTimeWatermarkMs := none }
  let s := { s with eventTimeMode := false }
  let s := { s with factEventTimesMs := [] }
  let s := { s with rulesFiredTotal := 0, factsInsertedTotal := 0, factsRetractedTotal := 0 }
  let s := { s with session := { s.session with agenda := {} } }
  let s := { s with session := { s.session with wmeCache := [] } }
  let s := { s with session := { s.session with workingMemory := {} } }
  let s := { s with retainedSharedFacts := [] }
  let s := { s with session := { s.session with tms := {} } }
  let s := { s with globals := defaultGlobals code.parsedGlobals }
  let s := { s with session := { s.session with mem := fun _ ↦ {} }, otherMemory := {} }
  let s := { s with factArena := [] }
  -- Neither of these is a member: outside of an execution there is no batch, and the log starts anew.
  let s := { s with session := { s.session with batch := [], log := [] } }
  { s with phreakEpoch := 0 }

/-- `reset`. -/
def StatefulSession.reset (code : SessionCode) (s : StatefulSession) :
    StatefulSession × Option ResetError :=
  if s.executionActive then (s, some .duringExecution)
  else
    let r := StatefulSession.prime code { s with state := s.state.reinitialise code }
    (r.1, r.2.map .session)

/-! ### Later calls -/

/-- What a client sees of a call: the exception it throws, or the rows it returns. -/
abbrev Answer := Except SessionError (List (List FactPtr))

def StatefulSession.call (code : SessionCode) (c : ClientCall) (s : StatefulSession) :
    StatefulSession × Answer :=
  let r := (code.operation c).run (s.validationMode.passes code) .schemaValidation s.state
  ({ s with state := r.1 },
    match r.2 with
    | some e => .error e
    | none => .ok (code.rows c r.1))

/-- A sequence of calls, with the answers. -/
def StatefulSession.calls (code : SessionCode) :
    List ClientCall → StatefulSession → StatefulSession × List Answer
  | [], s => (s, [])
  | c :: cs, s =>
    let (s, answer) := s.call code c
    let (s, answers) := StatefulSession.calls code cs s
    (s, answer :: answers)

/-! ### The claim -/

variable (code : SessionCode)

/-- **No member is forgotten.** -/
theorem reinitialise_eq_construct (s : SessionState) :
    s.reinitialise code = constructSession code s.surroundings := rfl

theorem passes_of_ne_strict {mode : ValidationMode} (h : mode ≠ .strict) :
    mode.passes code = fun _ ↦ true := by
  funext fact
  simp [ValidationMode.passes, h]

theorem passes_strict : ValidationMode.strict.passes code = code.kb.validate := by
  funext fact
  simp [ValidationMode.passes]

/-- A session is primed in its mode as a new one is, where nothing is rejected. -/
theorem prime_eq_create {s : StatefulSession} {place : Surroundings}
    (hstate : s.state = constructSession code place)
    (haccepts : (primeSession code).accepts (s.validationMode.passes code)
      (constructSession code place) = true) :
    StatefulSession.prime code s =
      ({ s with state := (createSession code place).1.state }, (createSession code place).2) := by
  have hrun : (primeSession code).run (s.validationMode.passes code) .schemaValidation
      (constructSession code place) =
        (primeSession code).run (fun _ ↦ true) .schemaValidation (constructSession code place) :=
    CheckedProgram.run_of_accepts _ haccepts
  have hnone : ValidationMode.none.passes code = fun _ ↦ true :=
    passes_of_ne_strict code (by decide)
  simp only [StatefulSession.prime, createSession, hstate, hrun, hnone]

/-- **A session after `reset` is a new session** exactly where its validation mode is not strict, or
priming inserts only facts that the schema accepts: `reset` returns, and whatever is called later,
the members of the session and the answers are those of a new session with the same listeners,
validation mode and tracing switch. -/
theorem reset_iff (s : StatefulSession) (hidle : s.executionActive = false)
    (hcreate : (createSession code s.state.surroundings).2 = none) :
    ((s.reset code).2 = none ∧ ∀ cs : List ClientCall,
      (s.reset code).1.calls code cs =
        ((createSession code s.state.surroundings).1.configuredAs s).calls code cs) ↔
      (s.validationMode = .strict →
        (primeSession code).accepts code.kb.validate
          (constructSession code s.state.surroundings) = true) := by
  have hreset : s.reset code =
      ((StatefulSession.prime code { s with state := s.state.reinitialise code }).1,
        (StatefulSession.prime code { s with state := s.state.reinitialise code }).2.map .session) := by
    simp [StatefulSession.reset, hidle]
  constructor
  · rintro ⟨hreturns, -⟩ hstrict
    rw [hreset] at hreturns
    have hprime := Option.map_eq_none_iff.mp hreturns
    rw [← passes_strict, ← hstrict]
    exact CheckedProgram.accepts_of_run _ hprime
  · intro haccepts
    have hmode : (primeSession code).accepts (s.validationMode.passes code)
        (constructSession code s.state.surroundings) = true := by
      by_cases hstrict : s.validationMode = .strict
      · rw [hstrict, passes_strict]
        exact haccepts hstrict
      · rw [passes_of_ne_strict code hstrict]
        exact CheckedProgram.accepts_true _ _
    have hprime := prime_eq_create code (reinitialise_eq_construct code s.state)
      (s := { s with state := s.state.reinitialise code }) hmode
    rw [hreset, hprime]
    refine ⟨by simp [hcreate], fun cs ↦ ?_⟩
    have hsame : ({ s with state := (createSession code s.state.surroundings).1.state } :
        StatefulSession) = (createSession code s.state.surroundings).1.configuredAs s := by
      simp [StatefulSession.configuredAs, createSession, StatefulSession.prime, hidle]
    exact congrArg (StatefulSession.calls code cs) hsame

/-! ### Two programs -/

section Programs

variable (kb : KnowledgeBase) (steps : ℕ)

/-- `add_fact`. -/
def addFactProgram (fact : FactPtr) : SessionProgram :=
  .branch fun s ↦
    if fact = 0 then .done
    else if !s.session.isConsistent then .fail .sessionInconsistent
    else
      match kb.canonicalizeTypeName (s.session.heap fact).type with
      | none => .fail .ambiguousType
      | some name =>
        .act (fun s ↦ { s with session := writeType fact name s.session }) <|
        .submit (fun s ↦ s.session.heap fact) <|
        .act (fun s ↦ { s with
          factsInsertedTotal := s.factsInsertedTotal + 1
          session := activateEntryPoint kb (logicalRetract kb steps) fact .assert
            (insertWorkingMemory fact (assignIds kb fact s.session)) }) .done

/-- The program does to the session what `addFact` does. -/
theorem addFactProgram_run (fact : FactPtr) (s : SessionState) :
    let r := (addFactProgram kb steps fact).run kb.validate .schemaValidation s
    (r.1.session, r.2) = addFact kb steps fact s.session := by
  intro r
  simp only [r, addFactProgram, CheckedProgram.run, addFact]
  split
  · rfl
  · split
    · rfl
    · cases kb.canonicalizeTypeName (s.session.heap fact).type with
      | none => rfl
      | some name =>
        simp only [CheckedProgram.run]
        cases kb.validate ((writeType fact name s.session).heap fact) with
        | true => rfl
        | false => rfl

/-- `AccumulateNode::left_activate` on the root token, before there are facts: the node makes its
result fact and adds it. -/
def accumulateRootProgram (node : AccumulateNode) (n : ℕ) (allocate : SessionState → FactPtr) :
    SessionProgram :=
  .branch fun s ↦
    let fact := allocate s
    let item : LeftMemoryItem := { wme := .root, resultFact := fact }
    match kb.canonicalizeTypeName node.resultFactType with
    | none => .fail .ambiguousType
    | some name =>
      .act (fun s ↦ { s with
        factArena := s.factArena ++ [fact]
        session := { s.session with
          heap := Function.update s.session.heap fact
            { type := name, fields := node.info.resultFields item } }
        otherMemory := { s.otherMemory with
          accumulate := Function.update s.otherMemory.accumulate n { left := [(.root, item)] } } })
      ((addFactProgram kb steps fact).andThen
        (.act (fun s ↦ { s with
          session :=
            let (w, session) := s.session.getOrCreateWme .root fact
            node.children.foldl (fun session child ↦
              leftActivate kb (logicalRetract kb steps) (kb.network.nodes.length + 1) child w
                .assert session) session }) .done))

end Programs

/-! ### A strict session -/

/-- A schema that declares the type `Item` alone. Every rule has conditions. -/
def itemBase : KnowledgeBase where
  rules := []
  network := {}
  runtime := noExpressions
  hashes := ⟨fun p ↦ p, fun w ↦ w.depth, fun rule ↦ rule⟩
  validate := fun fact ↦ fact.type = "Item"
  nestingLimit := 1

/-- `Number() from accumulate(Item(), sum(price))`. -/
def itemTotal : AccumulateNode where
  info := { function := .sum, accumulateFieldName := "price", hasKernel := price_hasKernel }
  resultFactType := "Number"
  condition := ⟨[], [], []⟩
  children := []

/-- The sessions of a knowledge base with the accumulate pattern as the only condition. -/
def itemCode : SessionCode where
  kb := itemBase
  betaRootNodes := [0]
  leftActivateRoot _ := accumulateRootProgram itemBase 1 itemTotal 0 fun _ ↦ 1
  operation
    | .addFact fact => addFactProgram itemBase 1 fact
    | _ => .done
  rows _ _ := []

def itemPlace : Surroundings := ⟨fun _ ↦ { type := "Item" }, 1, 0⟩

/-- A new session. -/
def itemSession : StatefulSession := (createSession itemCode itemPlace).1

/-- The session after a client has added an item. -/
def stockedSession : StatefulSession := (itemSession.call itemCode (.addFact 7)).1

/-- A session that holds an item and does not validate can be reset. -/
theorem reset_iff_unvalidated :
    stockedSession.state.session.workingMemory.facts.length = 2 ∧
      (stockedSession.reset itemCode).2 = none ∧ ∀ cs : List ClientCall,
        (stockedSession.reset itemCode).1.calls itemCode cs =
          ((createSession itemCode stockedSession.state.surroundings).1.configuredAs
            stockedSession).calls itemCode cs :=
  ⟨rfl, (reset_iff itemCode stockedSession rfl rfl).mpr fun h ↦ by cases h⟩

/-- **Reset throws in a strict session**: the total is not of a declared type. A new session has
the total in working memory, the session after the attempt has nothing. -/
theorem resetThrows :
    let s := { itemSession with validationMode := .strict }
    (createSession itemCode s.state.surroundings).2 = none ∧
      (s.reset itemCode).2 = some (.session .schemaValidation) ∧
      (s.reset itemCode).1.state.session.workingMemory.facts = [] ∧
      ((createSession itemCode s.state.surroundings).1.configuredAs
        s).state.session.workingMemory.facts = [(1, 1)] := by
  decide +kernel

end RulesForge
