import Mathlib.Algebra.Order.BigOperators.Group.List
import RulesForge.Engine.ContinuousRuns

/-!
# Guarantees of continuous sessions

What a caller can rely on in every run of a continuous session, whatever the rule session does:
a failed call is undone or the session is marked inconsistent, and the bounds of the
configuration hold.
-/

namespace RulesForge

open EStateM

variable {σ : Type} {engine : RuleEngine σ} {config : ContinuousSessionConfig} {world : σ}

/-! ### A rule session without rules -/

/-- Facts with the ids they were given. -/
structure FactStore where
  nextId : ℕ := 1
  facts : List Fact := []

/-- The rule session of a knowledge base without rules, with one entry point. Facts are
addressed by their ids. -/
def storeEngine : RuleEngine FactStore where
  createSession := fun _ ↦ .ok () {}
  isConsistent _ := true
  nextFactId s := s.nextId
  pendingActivationCount _ := 0
  factsSnapshot s := s.facts
  validateEntryPointRoute _ entryPoint _ :=
    if entryPoint = "events" then .ok ()
    else .error (.invalidArgument ("Unknown entry point '" ++ entryPoint ++ "'"))
  insertEventInto _ fact _ := fun s ↦
    .ok s.nextId ⟨s.nextId + 1, s.facts ++ [{ fact with id := s.nextId }]⟩
  advanceEventTime _ := pure 0
  retractFrom _ p := modify fun s ↦ { s with facts := s.facts.filter (·.id ≠ p) }
  fireAllRulesFailFast _ := pure 0

/-- An event of the store. -/
def storeEvent (eventId : String) (time : Millis) : EventEnvelope :=
  ⟨eventId, "events", time, some { type := "Event" }⟩

/-- Time zero. -/
def timeZero : Millis := ⟨0, by decide⟩

/-! ### Failed calls -/

/-- What a caller can see of a continuous session. -/
structure Unchanged (engine : RuleEngine σ) (s s' : ContinuousSession σ) : Prop
    extends SameLog s s' where
  watermark : s'.watermarkMs = s.watermarkMs
  active : s'.activeEvents = s.activeEvents
  dedup : s'.dedupEventTimes = s.dedupEventTimes
  workingMemory : engine.factsSnapshot s'.session = engine.factsSnapshot s.session

theorem Rebuilt.unique (hcreate : ∀ w w', engine.createSession w = engine.createSession w')
    {operations : List Operation} {s s' : ReplayedState σ}
    (h : Rebuilt engine config operations s) (h' : Rebuilt engine config operations s') :
    s' = s := by
  obtain ⟨w, session, hsession, hreplay⟩ := h
  obtain ⟨w', session', hsession', hreplay'⟩ := h'
  rw [hcreate w' w, hsession] at hsession'
  cases hsession'
  rw [hreplay] at hreplay'
  cases hreplay'
  rfl

/-- **Failure atomicity**: where every new rule session starts alike, a call that fails leaves
the session marked inconsistent, or everything a caller can see as it was. -/
theorem call_failure_atomic (engine : RuleEngine σ) (config : ContinuousSessionConfig)
    (hcreate : ∀ w w', engine.createSession w = engine.createSession w') {world : σ}
    {trace : List (Call × Bool)} {s : ContinuousSession σ}
    (hrun : ContinuousRun engine config world trace s) (call : Call) {failure : Failure}
    {s' : ContinuousSession σ} (hfail : call.run engine config s = .error failure s') :
    s'.isConsistent engine = false ∨ Unchanged engine s s' := by
  have hfailure := (call_ends call hrun.inv).of_error hfail
  cases hconsistent : s'.isConsistent engine with
  | false => exact .inl rfl
  | true =>
    have hconsistent' := consistent_of_isConsistent hconsistent
    have hbuilt := hrun.inv.built (hfailure.consistent hconsistent')
    have hbuilt' := hfailure.inv.built hconsistent'
    rw [hfailure.committed] at hbuilt'
    have heq : s'.toReplayedState = s.toReplayedState := hbuilt.unique hcreate hbuilt'
    exact .inr ⟨hfailure.toSameLog, by rw [heq], by rw [heq], by rw [heq], by rw [heq]⟩

/-- At most one batch may be pending. -/
def oneBatchConfig : ContinuousSessionConfig := { maxPendingResultBatches := 1 }

/-- After one event the only batch is pending. -/
def oneBatchSession : ContinuousSession FactStore :=
  ((Call.pushBatch [storeEvent "a" timeZero]).run storeEngine oneBatchConfig
    { session := {} }).state

theorem oneBatchSession_run : ContinuousRun storeEngine oneBatchConfig {}
    [(.pushBatch [storeEvent "a" timeZero], true)] oneBatchSession :=
  .of_ok (s := { session := {} }) (.start rfl) rfl

/-- The second event cannot be published, and the session goes back to the first. -/
theorem call_failure_atomic_oneBatch :
    let s' := ((Call.pushBatch [storeEvent "b" timeZero]).run storeEngine oneBatchConfig
      oneBatchSession).state
    s'.isConsistent storeEngine = false ∨ Unchanged storeEngine oneBatchSession s' :=
  call_failure_atomic storeEngine oneBatchConfig (fun _ _ ↦ rfl) oneBatchSession_run
    (.pushBatch [storeEvent "b" timeZero])
    (show _ = Result.error (.lengthError "Pending result limit exceeded") _ from rfl)

/-! ### Bounds -/

/-- **Bounds**: in every state of every run the sizes are within the configuration, the count
of pending results is the sum over the pending batches, and acknowledging a batch takes no more
than there is. -/
theorem run_within_bounds (engine : RuleEngine σ) (config : ContinuousSessionConfig) {world : σ}
    {trace : List (Call × Bool)} {s : ContinuousSession σ}
    (hrun : ContinuousRun engine config world trace s) :
    WithinBounds config s ∧
      ∀ batch ∈ s.pendingBatches, batch.outputCount ≤ s.metrics.pendingResults := by
  refine ⟨hrun.inv.toWithinBounds, fun batch hbatch ↦ ?_⟩
  rw [hrun.inv.results_eq]
  exact List.single_le_sum (by simp) _ (List.mem_map_of_mem hbatch)

theorem run_within_bounds_oneBatch :
    WithinBounds oneBatchConfig oneBatchSession ∧ ∀ batch ∈ oneBatchSession.pendingBatches,
      batch.outputCount ≤ oneBatchSession.metrics.pendingResults :=
  run_within_bounds storeEngine oneBatchConfig oneBatchSession_run

end RulesForge
