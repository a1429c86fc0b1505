import Mathlib.Data.List.Sort
import RulesForge.Core.Fact
import RulesForge.Library.AssocMap
import RulesForge.Library.Ends

/-!
# Continuous sessions

`ContinuousSession` (`src/engine/continuous_session.cpp`): events with ids and event times are
pushed into a rule session, a watermark supplied by the caller expires them, and every step
publishes a batch of results that the caller acknowledges. A step that fails part of the way is
undone by replaying the log of committed operations in a new rule session.

The rule session is a parameter, `RuleEngine`: its operations are computations over a state
that may fail and keep the state they have reached. A new session is created out of the state
of the old one, so that whatever lies outside of the session (a clock, a data source) can be
part of that state.
-/

namespace RulesForge

/-! ### Configuration and events -/

/-- The least value of `std::int64_t`. -/
def int64Min : ℤ := -2 ^ 63

/-- The greatest value of `std::int64_t`. -/
def int64Max : ℤ := 2 ^ 63 - 1

/-- `std::int64_t`, as the type of times in milliseconds. -/
abbrev Millis := {t : ℤ // int64Min ≤ t ∧ t ≤ int64Max}

structure ContinuousSessionConfig where
  maxActiveEvents : ℕ := 10000
  maxDedupEntries : ℕ := 20000
  maxPendingResultBatches : ℕ := 128
  maxPendingResults : ℕ := 10000
  maxInputBatchSize : ℕ := 1000
  maxReplaySteps : ℕ := 100000
  maxRulesPerStep : ℤ := 10000
  allowedLatenessMs : ℤ := 0
  eventRetentionMs : ℤ := 3600000
  dedupRetentionMs : ℤ := 3600000
  maxEventTimeLeadMs : ℤ := 86400000
  outputFactTypes : List String := []

/-- The exceptions of a session, with their messages. -/
inductive Failure where
  | invalidArgument (message : String)
  | lengthError (message : String)
  | runtimeError (message : String)
  deriving DecidableEq, Repr

/-- `validate_config`. -/
def ContinuousSessionConfig.validateConfig (config : ContinuousSessionConfig) :
    Except Failure Unit :=
  if config.maxActiveEvents = 0 ∨ config.maxDedupEntries = 0 ∨
      config.maxPendingResultBatches = 0 ∨ config.maxPendingResults = 0 ∨
      config.maxInputBatchSize = 0 ∨ config.maxReplaySteps = 0 ∨
      config.maxRulesPerStep ≤ 0 ∨ config.allowedLatenessMs < 0 ∨
      config.eventRetentionMs ≤ 0 ∨ config.dedupRetentionMs ≤ 0 ∨
      config.maxEventTimeLeadMs < 0 then
    .error (.invalidArgument "Continuous session limits must be positive and bounded")
  else .ok ()

structure EventEnvelope where
  eventId : String
  entryPoint : String
  eventTimeMs : Millis
  fact : Option Fact

/-- An event whose fact is in the rule session; `fact` is the fact's address. -/
structure ActiveEvent where
  eventId : String
  entryPoint : String
  eventTimeMs : Millis
  fact : FactPtr
  deriving DecidableEq

/-- What is left of an active event that has been moved away. -/
def ActiveEvent.movedFrom (e : ActiveEvent) : ActiveEvent :=
  { e with eventId := "", entryPoint := "", fact := 0 }

/-- What a step executes, and a replay again. -/
inductive Operation where
  | events (events : List EventEnvelope)
  | watermark (watermarkMs : Millis)
  | drain

structure PendingBatch where
  id : ℕ
  outputCount : ℕ
  deriving DecidableEq

structure ContinuousMetrics where
  acceptedEvents : ℕ := 0
  expiredEvents : ℕ := 0
  rejectedDuplicates : ℕ := 0
  rejectedLateEvents : ℕ := 0
  rejectedResourceLimits : ℕ := 0
  replayRecoveries : ℕ := 0
  pendingResults : ℕ := 0
  deriving DecidableEq

inductive ContinuousStepStatus where
  | committed | drainRequired
  deriving DecidableEq, Repr

structure ContinuousStepResult where
  status : ContinuousStepStatus
  batchId : ℕ := 0
  watermarkMs : Option Millis
  rulesFired : ℤ
  eventsExpired : ℕ
  outputs : List Fact := []

/-! ### The rule session -/

/-- The operations of a rule session with the state `σ`. `createSession` makes the session
ready for event time; `insertEventInto` returns the address of the fact it has inserted. -/
structure RuleEngine (σ : Type) where
  createSession : EStateM Failure σ Unit
  isConsistent : σ → Bool
  nextFactId : σ → ℤ
  pendingActivationCount : σ → ℕ
  factsSnapshot : σ → List Fact
  validateEntryPointRoute : σ → String → String → Except Failure Unit
  insertEventInto : String → Fact → Millis → EStateM Failure σ FactPtr
  advanceEventTime : Millis → EStateM Failure σ ℕ
  retractFrom : String → FactPtr → EStateM Failure σ Unit
  fireAllRulesFailFast : ℤ → EStateM Failure σ ℤ

/-- The part of a continuous session that a replay builds anew. -/
structure ReplayedState (σ : Type) where
  session : σ
  watermarkMs : Option Millis := none
  activeEvents : List ActiveEvent := []
  dedupEventTimes : List (String × Millis) := []

structure ContinuousSession (σ : Type) extends ReplayedState σ where
  committedOperations : List Operation := []
  pendingBatches : List PendingBatch := []
  metrics : ContinuousMetrics := {}
  nextBatchId : ℕ := 1
  consistent : Bool := true
  replaying : Bool := false

variable {σ : Type} (engine : RuleEngine σ) (config : ContinuousSessionConfig)

/-- `is_consistent`. -/
def ContinuousSession.isConsistent (s : ContinuousSession σ) : Bool :=
  s.consistent && engine.isConsistent s.session

/-- An operation of the rule session. -/
def onSession {α : Type} (x : EStateM Failure σ α) : EStateM Failure (ReplayedState σ) α :=
  fun s ↦
    match x s.session with
    | .ok a session => .ok a { s with session := session }
    | .error e session => .error e { s with session := session }

/-- A computation on the replayed part. -/
def onReplayed {α : Type} (x : EStateM Failure (ReplayedState σ) α) :
    EStateM Failure (ContinuousSession σ) α :=
  fun s ↦
    match x s.toReplayedState with
    | .ok a state => .ok a { s with toReplayedState := state }
    | .error e state => .error e { s with toReplayedState := state }

/-! ### Operations on the replayed part -/

/-- `checked_subtract` for a delta that is not negative: the difference, or the least value
when it would be below that. -/
def checkedSubtract (value delta : ℤ) : ℤ :=
  if value < int64Min + delta then int64Min else value - delta

/-- One round of `apply_events`; the fact is copied without its id. -/
def applyEvent (event : EventEnvelope) : EStateM Failure (ReplayedState σ) PUnit := do
  match event.fact with
  | none => pure ()
  | some fact =>
    let p ← onSession (engine.insertEventInto event.entryPoint { fact with id := 0 }
      event.eventTimeMs)
    modify fun s ↦ { s with
      activeEvents := s.activeEvents ++ [⟨event.eventId, event.entryPoint, event.eventTimeMs, p⟩]
      dedupEventTimes := AssocMap.insert event.eventId event.eventTimeMs s.dedupEventTimes }

/-- The loop of `apply_watermark` over the active events: `it` is read, `out` is where the next
event that stays is moved to. The result is the final `out`, with the number of events that
went. -/
def compactActiveEvents (boundary : ℤ) : ℕ → ℕ → ℕ → ℕ → EStateM Failure (ReplayedState σ) (ℕ × ℕ)
  | 0, _, out, expired => pure (out, expired)
  | rounds + 1, it, out, expired => do
    match (← get).activeEvents[it]? with
    | none => pure (out, expired)
    | some e =>
      if e.eventTimeMs.1 ≤ boundary then
        onSession (engine.retractFrom e.entryPoint e.fact)
        compactActiveEvents boundary rounds (it + 1) out (expired + 1)
      else
        if out ≠ it then
          modify fun s ↦ { s with
            activeEvents := (s.activeEvents.set out e).set it e.movedFrom }
        compactActiveEvents boundary rounds (it + 1) (out + 1) expired

/-- `expire_dedup_entries`. -/
def expireDedupEntries : EStateM Failure (ReplayedState σ) Unit :=
  modify fun s ↦
    match s.watermarkMs with
    | none => s
    | some w => { s with
        dedupEventTimes := s.dedupEventTimes.filter fun entry ↦
          ¬ entry.2.1 ≤ checkedSubtract w.1 config.dedupRetentionMs }

/-- `apply_watermark`. -/
def applyWatermark (watermarkMs : Millis) : EStateM Failure (ReplayedState σ) ℕ := do
  let expired ← onSession (engine.advanceEventTime watermarkMs)
  modify fun s ↦ { s with watermarkMs := some watermarkMs }
  let boundary := checkedSubtract watermarkMs.1 config.eventRetentionMs
  let rounds := (← get).activeEvents.length
  let (out, expired) ← compactActiveEvents engine boundary rounds 0 0 expired
  modify fun s ↦ { s with activeEvents := s.activeEvents.take out }
  expireDedupEntries config
  return expired

/-- The part of `execute_operation` that acts on the rule session: the number of rules fired
and of events expired. -/
def applyOperation (operation : Operation) : EStateM Failure (ReplayedState σ) (ℤ × ℕ) := do
  let expired ←
    match operation with
    | .events events => do
      events.forM (applyEvent engine)
      pure 0
    | .watermark w => applyWatermark engine config w
    | .drain => pure 0
  let rulesFired ← onSession (engine.fireAllRulesFailFast config.maxRulesPerStep)
  return (rulesFired, expired)

/-! ### Steps -/

/-- `collect_outputs`. -/
def collectOutputs (firstNewFactId : ℤ) (session : σ) : List Fact :=
  ((engine.factsSnapshot session).filter fun fact ↦
    firstNewFactId ≤ fact.id ∧ fact.type ∈ config.outputFactTypes).insertionSort
      fun a b ↦ a.id ≤ b.id

/-- `DrainRequired` while activations are left. -/
def stepStatus (session : σ) : ContinuousStepStatus :=
  if engine.pendingActivationCount session = 0 then .committed else .drainRequired

/-- A rejection for want of room. -/
def rejectResourceLimit {α : Type} (failure : Failure) :
    EStateM Failure (ContinuousSession σ) α := do
  modify fun s ↦ { s with
    metrics := { s.metrics with
      rejectedResourceLimits := s.metrics.rejectedResourceLimits + 1 } }
  throw failure

/-- `publish_result`. -/
def publishResult (rulesFired : ℤ) (eventsExpired : ℕ) (firstNewFactId : ℤ) :
    EStateM Failure (ContinuousSession σ) ContinuousStepResult := do
  let s ← get
  let outputs := collectOutputs engine config firstNewFactId s.session
  if config.maxPendingResultBatches ≤ s.pendingBatches.length ∨
      config.maxPendingResults < outputs.length ∨
      config.maxPendingResults - outputs.length < s.metrics.pendingResults then
    rejectResourceLimit (.lengthError "Pending result limit exceeded")
  else
    modify fun s ↦ { s with
      pendingBatches := s.pendingBatches ++ [⟨s.nextBatchId, outputs.length⟩]
      nextBatchId := s.nextBatchId + 1
      metrics := { s.metrics with pendingResults := s.metrics.pendingResults + outputs.length } }
    return {
      status := stepStatus engine s.session
      batchId := s.nextBatchId
      watermarkMs := s.watermarkMs
      rulesFired := rulesFired
      eventsExpired := eventsExpired
      outputs := outputs }

/-- The number of events an operation brings. -/
def Operation.eventCount : Operation → ℕ
  | .events batch => batch.length
  | _ => 0

/-- The operation enters the log. -/
def recordOperation (operation : Operation) (expired : ℕ) (s : ContinuousSession σ) :
    ContinuousSession σ :=
  { s with
    committedOperations := s.committedOperations ++ [operation]
    metrics := { s.metrics with
      acceptedEvents := s.metrics.acceptedEvents + operation.eventCount
      expiredEvents := s.metrics.expiredEvents + expired } }

/-- The operation is taken out of the log again. -/
def unrecordOperation (operation : Operation) (expired : ℕ) (s : ContinuousSession σ) :
    ContinuousSession σ :=
  { s with
    committedOperations := s.committedOperations.dropLast
    metrics := { s.metrics with
      acceptedEvents := s.metrics.acceptedEvents - operation.eventCount
      expiredEvents := s.metrics.expiredEvents - expired } }

/-- The block of `execute_operation` that is tried. -/
def tryOperation (operation : Operation) (recordOp publish : Bool) :
    EStateM Failure (ContinuousSession σ) ContinuousStepResult := do
  let firstNewFactId := engine.nextFactId (← get).session
  let (rulesFired, expired) ← onReplayed (applyOperation engine config operation)
  if recordOp then modify (recordOperation operation expired)
  if publish then
    tryCatch (publishResult engine config rulesFired expired firstNewFactId) fun failure ↦ do
      if recordOp then modify (unrecordOperation operation expired)
      throw failure
  else
    let s ← get
    return {
      status := stepStatus engine s.session
      watermarkMs := s.watermarkMs
      rulesFired := rulesFired
      eventsExpired := expired }

/-- The session is marked inconsistent. -/
def markInconsistent : EStateM Failure (ContinuousSession σ) Unit :=
  modify fun s ↦ { s with consistent := false }

/-- `execute_operation`, with the recovery as an argument: it is called only when no replay is
under way. -/
def executeOperationWith (recover : EStateM Failure (ContinuousSession σ) Unit)
    (operation : Operation) (recordOp publish : Bool) :
    EStateM Failure (ContinuousSession σ) ContinuousStepResult :=
  tryCatch (tryOperation engine config operation recordOp publish) fun failure ↦ do
    if (← get).replaying then markInconsistent
    else tryCatch recover fun _ ↦ markInconsistent
    throw failure

/-- An operation of the log in a replay. -/
def replayOperation (operation : Operation) : EStateM Failure (ContinuousSession σ) PUnit := do
  let _ ← executeOperationWith engine config (pure ()) operation false false

/-- The replay of the log. -/
def replayCommitted : EStateM Failure (ContinuousSession σ) PUnit := do
  (← get).committedOperations.forM (replayOperation engine config)

/-- `recover_by_replay`. -/
def recoverByReplay : EStateM Failure (ContinuousSession σ) Unit := do
  onReplayed (onSession engine.createSession)
  modify fun s ↦ { s with
    replaying := true, watermarkMs := none, activeEvents := [], dedupEventTimes := [] }
  let metrics := (← get).metrics
  tryCatch (replayCommitted engine config) fun failure ↦ do
    modify fun s ↦ { s with replaying := false, consistent := false }
    throw failure
  modify fun s ↦ { s with
    metrics := { s.metrics with
      acceptedEvents := metrics.acceptedEvents
      expiredEvents := metrics.expiredEvents
      replayRecoveries := s.metrics.replayRecoveries + 1 }
    consistent := true
    replaying := false }

/-- `execute_operation`. -/
def executeOperation (operation : Operation) (recordOp publish : Bool) :
    EStateM Failure (ContinuousSession σ) ContinuousStepResult :=
  executeOperationWith engine config (recoverByReplay engine config) operation recordOp publish

/-! ### Calls -/

/-- `clone_envelope`. -/
def cloneEnvelope (event : EventEnvelope) : EventEnvelope :=
  { event with fact := event.fact.map fun fact ↦ { fact with id := 0 } }

/-- The boundary before which an event is late. -/
def lateBoundary (watermarkMs : Millis) : ℤ :=
  checkedSubtract watermarkMs.1 config.allowedLatenessMs

/-- Whether an event is too far ahead of the watermark. The sum is not formed where it would
overflow. -/
def beyondLead (watermarkMs eventTimeMs : Millis) : Bool :=
  if int64Max - config.maxEventTimeLeadMs < watermarkMs.1 then false
  else decide (watermarkMs.1 + config.maxEventTimeLeadMs < eventTimeMs.1)

/-- One round of the loop of `validate_events`: the ids of the batch so far are in `batchIds`. -/
def validateEvent (batchIds : List String) (event : EventEnvelope) :
    EStateM Failure (ContinuousSession σ) PUnit := do
  let s ← get
  match event.fact with
  | none => throw (.invalidArgument "Event ID, entry point, and fact are required")
  | some fact =>
    if event.eventId = "" ∨ event.entryPoint = "" then
      throw (.invalidArgument "Event ID, entry point, and fact are required")
    else if AssocMap.contains event.eventId s.dedupEventTimes ∨ event.eventId ∈ batchIds then
      modify fun s ↦ { s with
        metrics := { s.metrics with rejectedDuplicates := s.metrics.rejectedDuplicates + 1 } }
      throw (.invalidArgument ("Duplicate event ID: " ++ event.eventId))
    else if s.watermarkMs.any fun w ↦ event.eventTimeMs.1 < lateBoundary config w then
      modify fun s ↦ { s with
        metrics := { s.metrics with rejectedLateEvents := s.metrics.rejectedLateEvents + 1 } }
      throw (.invalidArgument ("Late event rejected: " ++ event.eventId))
    else if s.watermarkMs.any fun w ↦ beyondLead config w event.eventTimeMs then
      throw (.invalidArgument "Event time exceeds configured watermark lead")
    else
      match engine.validateEntryPointRoute s.session event.entryPoint fact.type with
      | .error failure => throw failure
      | .ok () => pure ()

/-- The loop of `validate_events`. -/
def validateEach : List String → List EventEnvelope → EStateM Failure (ContinuousSession σ) PUnit
  | _, [] => pure ()
  | batchIds, event :: events => do
    validateEvent engine config batchIds event
    validateEach (event.eventId :: batchIds) events

/-- The checks that open every call. -/
def ensureConsistent : EStateM Failure (ContinuousSession σ) PUnit := do
  if !(← get).isConsistent engine then
    throw (.runtimeError "Continuous session is inconsistent")

def ensureReplaySteps : EStateM Failure (ContinuousSession σ) PUnit := do
  if config.maxReplaySteps ≤ (← get).committedOperations.length then
    rejectResourceLimit (.lengthError "Replay step limit exceeded")

/-- `validate_events`. -/
def validateEvents (events : List EventEnvelope) :
    EStateM Failure (ContinuousSession σ) PUnit := do
  ensureConsistent engine
  let s ← get
  if events = [] ∨ config.maxInputBatchSize < events.length then
    rejectResourceLimit
      (.invalidArgument "Event batch is empty or exceeds max_input_batch_size")
  else if config.maxActiveEvents < events.length ∨
      config.maxActiveEvents - events.length < s.activeEvents.length then
    rejectResourceLimit (.lengthError "Active event limit exceeded")
  else if config.maxDedupEntries < events.length ∨
      config.maxDedupEntries - events.length < s.dedupEventTimes.length then
    rejectResourceLimit (.lengthError "Deduplication entry limit exceeded")
  else
    ensureReplaySteps config
    validateEach engine config [] events

/-- `push_batch`; `push` is the batch of one event. -/
def pushBatch (events : List EventEnvelope) :
    EStateM Failure (ContinuousSession σ) ContinuousStepResult := do
  validateEvents engine config events
  executeOperation engine config (.events (events.map cloneEnvelope)) true true

/-- `advance_watermark`. -/
def advanceWatermark (watermarkMs : Millis) :
    EStateM Failure (ContinuousSession σ) ContinuousStepResult := do
  ensureConsistent engine
  if (← get).watermarkMs.any fun w ↦ watermarkMs.1 < w.1 then
    throw (.invalidArgument "Watermark cannot move backwards")
  else
    ensureReplaySteps config
    executeOperation engine config (.watermark watermarkMs) true true

/-- `drain`. -/
def drain : EStateM Failure (ContinuousSession σ) ContinuousStepResult := do
  ensureConsistent engine
  ensureReplaySteps config
  executeOperation engine config .drain true true

/-- `acknowledge`. -/
def acknowledge (batchId : ℕ) : EStateM Failure (ContinuousSession σ) Unit := do
  match (← get).pendingBatches with
  | [] => throw (.invalidArgument "Result batches must be acknowledged in order")
  | batch :: batches =>
    if batch.id ≠ batchId then
      throw (.invalidArgument "Result batches must be acknowledged in order")
    else
      modify fun s ↦ { s with
        metrics := { s.metrics with
          pendingResults := s.metrics.pendingResults - batch.outputCount }
        pendingBatches := batches }

/-- The constructor: the configuration is checked, and a rule session is created out of
`world`. -/
def newContinuousSession (world : σ) : Except Failure (ContinuousSession σ) := do
  config.validateConfig
  if config.outputFactTypes.any (· = "") then
    throw (.invalidArgument "Output fact type cannot be empty")
  match engine.createSession world with
  | .ok () session => return { session := session }
  | .error failure _ => throw failure

/-! ### Runs -/

/-- The calls of a client. -/
inductive Call where
  | pushBatch (events : List EventEnvelope)
  | advanceWatermark (watermarkMs : Millis)
  | drain
  | acknowledge (batchId : ℕ)

/-- A call without its result. -/
def Call.run : Call → EStateM Failure (ContinuousSession σ) Unit
  | .pushBatch events => do let _ ← RulesForge.pushBatch engine config events
  | .advanceWatermark w => do let _ ← RulesForge.advanceWatermark engine config w
  | .drain => do let _ ← RulesForge.drain engine config
  | .acknowledge batchId => RulesForge.acknowledge batchId

/-- Whether a computation has returned a value. -/
def succeeded {α : Type} : EStateM.Result Failure (ContinuousSession σ) α → Bool
  | .ok _ _ => true
  | .error _ _ => false

/-- The runs from a new session: the calls so far with their outcome, the latest first, and the
session they have left. -/
inductive ContinuousRun (world : σ) : List (Call × Bool) → ContinuousSession σ → Prop
  | start {s} : newContinuousSession engine config world = .ok s → ContinuousRun world [] s
  | call {trace s} (call : Call) : ContinuousRun world trace s →
      ContinuousRun world ((call, succeeded (call.run engine config s)) :: trace)
        (call.run engine config s).state

end RulesForge
