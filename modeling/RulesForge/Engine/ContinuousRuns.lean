import RulesForge.Engine.ContinuousInvariant

/-!
# Runs of continuous sessions

Every call of a continuous session keeps the invariant, so the invariant holds in every state of
every run.
-/

namespace RulesForge

open EStateM

variable {σ α : Type} {engine : RuleEngine σ} {config : ContinuousSessionConfig}

/-! ### Validation -/

/-- A call that was rejected before anything was done. -/
structure Rejected (s s' : ContinuousSession σ) : Prop extends SameLog s s' where
  replayed : s'.toReplayedState = s.toReplayedState
  consistent : s'.consistent = s.consistent
  replaying : s'.replaying = s.replaying

theorem Rejected.refl (s : ContinuousSession σ) : Rejected s s := ⟨SameLog.refl s, rfl, rfl, rfl⟩

/-- A rejected call leaves the invariant. -/
theorem Rejected.inv {s s' : ContinuousSession σ} (h : Rejected s s')
    (hinv : ContinuousInv engine config s) : ContinuousInv engine config s' where
  toWithinBounds := hinv.toWithinBounds.sameLog h.toSameLog (h.replayed ▸ hinv.active)
    (h.replayed ▸ hinv.dedup)
  fits := by
    rw [h.committed]
    exact hinv.fits
  built hconsistent := by
    rw [h.committed, h.replayed]
    exact hinv.built (h.consistent ▸ hconsistent)
  replaying := h.replaying.trans hinv.replaying

theorem rejectResourceLimit_rejected (failure : Failure) (s : ContinuousSession σ)
    {ok : α → ContinuousSession σ → Prop} :
    (rejectResourceLimit failure).Ends s ok fun _ s' ↦ Rejected s s' := by
  refine (rejectResourceLimit_ends failure s).mono (fun _ _ h ↦ h) ?_
  rintro _ _ rfl
  exact ⟨⟨rfl, rfl, rfl, rfl, rfl, rfl⟩, rfl, rfl, rfl⟩

/-- What the checks of a batch establish. -/
structure Admitted (engine : RuleEngine σ) (config : ContinuousSessionConfig)
    (s : ContinuousSession σ) (events : List EventEnvelope) : Prop where
  consistent : s.isConsistent engine = true
  active : s.activeEvents.length + events.length ≤ config.maxActiveEvents
  dedup : s.dedupEventTimes.length + events.length ≤ config.maxDedupEntries
  replaySteps : s.committedOperations.length < config.maxReplaySteps
  facts : ∀ e ∈ events, e.fact.isSome = true
  fresh : ∀ e ∈ events, AssocMap.contains e.eventId s.dedupEventTimes = false
  ids : (events.map EventEnvelope.eventId).Nodup
  timely : ∀ e ∈ events, ∀ w ∈ s.watermarkMs, lateBoundary config w ≤ e.eventTimeMs.1

theorem validateEvent_ends (batchIds : List String) (event : EventEnvelope)
    (s : ContinuousSession σ) :
    (validateEvent engine config batchIds event).Ends s
      (fun _ s' ↦ s' = s ∧ event.fact.isSome = true ∧
        AssocMap.contains event.eventId s.dedupEventTimes = false ∧ event.eventId ∉ batchIds ∧
        ∀ w ∈ s.watermarkMs, lateBoundary config w ≤ event.eventTimeMs.1)
      fun _ s' ↦ Rejected s s' := by
  unfold validateEvent
  refine .bind (.get ?_)
  cases event.fact with
  | none => exact .throw (Rejected.refl s)
  | some fact =>
    dsimp only
    split
    · exact .throw (Rejected.refl s)
    · split
      · exact .bind (.modify (.throw ⟨⟨rfl, rfl, rfl, rfl, rfl, rfl⟩, rfl, rfl, rfl⟩))
      · next hfresh =>
        split
        · exact .bind (.modify (.throw ⟨⟨rfl, rfl, rfl, rfl, rfl, rfl⟩, rfl, rfl, rfl⟩))
        · next htimely =>
          split
          · exact .throw (Rejected.refl s)
          · split
            · exact .throw (Rejected.refl s)
            · obtain ⟨hdedup, hbatch⟩ := not_or.mp hfresh
              refine .pure ⟨rfl, rfl, by simpa using hdedup, hbatch, fun w hw ↦ ?_⟩
              have hw : s.watermarkMs = some w := hw
              simpa [hw] using htimely

theorem validateEach_ends (events : List EventEnvelope) (batchIds : List String)
    (s : ContinuousSession σ) :
    (validateEach engine config batchIds events).Ends s
      (fun _ s' ↦ s' = s ∧ (∀ e ∈ events, e.fact.isSome = true) ∧
        (∀ e ∈ events, AssocMap.contains e.eventId s.dedupEventTimes = false) ∧
        (∀ e ∈ events, e.eventId ∉ batchIds) ∧ (events.map EventEnvelope.eventId).Nodup ∧
        ∀ e ∈ events, ∀ w ∈ s.watermarkMs, lateBoundary config w ≤ e.eventTimeMs.1)
      fun _ s' ↦ Rejected s s' := by
  induction events generalizing batchIds with
  | nil => exact .pure ⟨rfl, by simp, by simp, by simp, by simp, by simp⟩
  | cons event events ih =>
    refine .bind ((validateEvent_ends batchIds event s).mono ?_ fun _ _ h ↦ h)
    rintro _ _ ⟨rfl, hfact, hfresh, hbatch, htimely⟩
    refine (ih (event.eventId :: batchIds)).mono ?_ fun _ _ h ↦ h
    rintro _ _ ⟨rfl, hfacts, hallFresh, hbatches, hnodup, hallTimely⟩
    refine ⟨rfl, ?_, ?_, ?_, ?_, ?_⟩
    · exact List.forall_mem_cons.mpr ⟨hfact, hfacts⟩
    · exact List.forall_mem_cons.mpr ⟨hfresh, hallFresh⟩
    · exact List.forall_mem_cons.mpr
        ⟨hbatch, fun e he hmem ↦ hbatches e he (List.mem_cons_of_mem _ hmem)⟩
    · refine List.nodup_cons.mpr ⟨fun hmem ↦ ?_, hnodup⟩
      obtain ⟨e, he, heq⟩ := List.mem_map.mp hmem
      exact hbatches e he (heq ▸ List.mem_cons_self)
    · exact List.forall_mem_cons.mpr ⟨htimely, hallTimely⟩

theorem ensureConsistent_ends (s : ContinuousSession σ) :
    (ensureConsistent engine).Ends s (fun _ s' ↦ s' = s ∧ s.isConsistent engine = true)
      fun _ s' ↦ Rejected s s' := by
  unfold ensureConsistent
  refine .bind (.get ?_)
  cases hconsistent : s.isConsistent engine with
  | true => exact .pure ⟨rfl, rfl⟩
  | false => exact .throw (Rejected.refl s)

theorem ensureReplaySteps_ends (s : ContinuousSession σ) :
    (ensureReplaySteps config).Ends s
      (fun _ s' ↦ s' = s ∧ s.committedOperations.length < config.maxReplaySteps)
      fun _ s' ↦ Rejected s s' := by
  unfold ensureReplaySteps
  refine .bind (.get ?_)
  split
  · exact rejectResourceLimit_rejected _ s
  · next hroom => exact .pure ⟨rfl, not_le.mp hroom⟩

theorem validateEvents_ends (events : List EventEnvelope) (s : ContinuousSession σ) :
    (validateEvents engine config events).Ends s
      (fun _ s' ↦ s' = s ∧ Admitted engine config s events) fun _ s' ↦ Rejected s s' := by
  unfold validateEvents
  refine .bind ((ensureConsistent_ends s).mono ?_ fun _ _ h ↦ h)
  rintro _ _ ⟨rfl, hconsistent⟩
  refine .bind (.get ?_)
  split
  · exact rejectResourceLimit_rejected _ _
  · split
    · exact rejectResourceLimit_rejected _ _
    · next hactive =>
      split
      · exact rejectResourceLimit_rejected _ _
      · next hdedup =>
        refine .bind ((ensureReplaySteps_ends _).mono ?_ fun _ _ h ↦ h)
        rintro _ _ ⟨rfl, hsteps⟩
        refine (validateEach_ends events [] _).mono ?_ fun _ _ h ↦ h
        rintro _ _ ⟨rfl, hfacts, hfresh, -, hids, htimely⟩
        exact ⟨rfl, hconsistent, by omega, by omega, hsteps, hfacts, hfresh, hids, htimely⟩

/-! ### Calls -/

/-- The effect of a call that succeeds. -/
inductive CallEffect (engine : RuleEngine σ) (config : ContinuousSessionConfig)
    (s s' : ContinuousSession σ) : Call → Prop
  | pushBatch {events} : Admitted engine config s events →
      Committed engine config (.events (events.map cloneEnvelope)) s s' →
      CallEffect engine config s s' (.pushBatch events)
  | advanceWatermark {w} : s.consistent = true → (∀ v ∈ s.watermarkMs, v.1 ≤ w.1) →
      Committed engine config (.watermark w) s s' →
      CallEffect engine config s s' (.advanceWatermark w)
  | drain : Committed engine config .drain s s' → CallEffect engine config s s' .drain
  | acknowledge {batch batches} : s.pendingBatches = batch :: batches →
      s' = { s with
        metrics := { s.metrics with
          pendingResults := s.metrics.pendingResults - batch.outputCount }
        pendingBatches := batches } →
      CallEffect engine config s s' (.acknowledge batch.id)

/-- What is left by a call that fails: the log is as it was, and a session that is still
consistent was so before. -/
structure CallFailure (engine : RuleEngine σ) (config : ContinuousSessionConfig)
    (s s' : ContinuousSession σ) : Prop extends SameLog s s' where
  inv : ContinuousInv engine config s'
  consistent : s'.consistent = true → s.consistent = true

theorem Rejected.callFailure {s s' : ContinuousSession σ} (h : Rejected s s')
    (hinv : ContinuousInv engine config s) : CallFailure engine config s s' :=
  ⟨h.toSameLog, h.inv hinv, fun hc ↦ h.consistent ▸ hc⟩

variable {s : ContinuousSession σ}

theorem consistent_of_isConsistent (h : s.isConsistent engine = true) :
    s.consistent = true :=
  (Bool.and_eq_true_iff.mp h).1

theorem length_cloneEnvelope (events : List EventEnvelope) :
    (Operation.events (events.map cloneEnvelope)).eventCount = events.length :=
  List.length_map _

theorem Admitted.fits {events : List EventEnvelope}
    (h : Admitted engine config s events) :
    s.ledger.Fits config (.events (events.map cloneEnvelope)) where
  active := by
    rw [length_cloneEnvelope]
    simpa [ReplayedState.ledger] using h.active
  dedup := by
    rw [length_cloneEnvelope]
    exact h.dedup

/-- An operation that brings no events fits. -/
theorem ContinuousInv.fits_of_eventCount
    (h : ContinuousInv engine config s) {operation : Operation} (hcount : operation.eventCount = 0) :
    s.ledger.Fits config operation where
  active := by
    rw [hcount]
    simpa [ReplayedState.ledger] using h.active
  dedup := by
    rw [hcount]
    exact h.dedup

theorem acknowledge_inv (h : ContinuousInv engine config s)
    {batch : PendingBatch} {batches : List PendingBatch}
    (hbatches : s.pendingBatches = batch :: batches) :
    ContinuousInv engine config { s with
      metrics := { s.metrics with
        pendingResults := s.metrics.pendingResults - batch.outputCount }
      pendingBatches := batches } := by
  have hlength := h.batches
  have hsum := h.results_eq
  have hresults := h.results
  rw [hbatches] at hlength hsum
  simp only [List.length_cons, List.map_cons, List.sum_cons] at hlength hsum
  exact ⟨⟨h.active, h.dedup, h.committed, by simp only; omega, by simp only; omega,
    by simp only; omega⟩, h.fits, h.built, h.replaying⟩

/-- **A call keeps the invariant**, whether it succeeds or fails. -/
theorem call_ends (call : Call) (h : ContinuousInv engine config s) :
    (call.run engine config).Ends s
      (fun _ s' ↦ ContinuousInv engine config s' ∧ CallEffect engine config s s' call)
      fun _ s' ↦ CallFailure engine config s s' := by
  cases call with
  | pushBatch events =>
    refine .bind (.bind ((validateEvents_ends events s).mono ?_ fun _ _ hs' ↦ hs'.callFailure h))
    rintro _ _ ⟨rfl, hadmitted⟩
    have hconsistent := consistent_of_isConsistent hadmitted.consistent
    refine (executeOperation_ends h hconsistent hadmitted.fits hadmitted.replaySteps).mono ?_ ?_
    · rintro _ _ ⟨hinv, hcommitted⟩
      exact .pure ⟨hinv, .pushBatch hadmitted hcommitted⟩
    · rintro _ _ ⟨hinv, hlog⟩
      exact ⟨hlog, hinv, fun _ ↦ hconsistent⟩
  | advanceWatermark w =>
    refine .bind (.bind ((ensureConsistent_ends s).mono ?_ fun _ _ hs' ↦ hs'.callFailure h))
    rintro _ _ ⟨rfl, hconsistent⟩
    have hconsistent := consistent_of_isConsistent hconsistent
    refine .bind (.get ?_)
    split
    · exact .throw ((Rejected.refl _).callFailure h)
    · next hforward =>
      refine .bind ((ensureReplaySteps_ends _).mono ?_ fun _ _ hs' ↦ hs'.callFailure h)
      rintro _ _ ⟨rfl, hsteps⟩
      refine (executeOperation_ends h hconsistent (h.fits_of_eventCount rfl) hsteps).mono ?_ ?_
      · rintro _ _ ⟨hinv, hcommitted⟩
        refine .pure ⟨hinv, .advanceWatermark hconsistent (fun v hv ↦ ?_) hcommitted⟩
        have hv : _ = some v := hv
        simpa [hv] using hforward
      · rintro _ _ ⟨hinv, hlog⟩
        exact ⟨hlog, hinv, fun _ ↦ hconsistent⟩
  | drain =>
    refine .bind (.bind ((ensureConsistent_ends s).mono ?_ fun _ _ hs' ↦ hs'.callFailure h))
    rintro _ _ ⟨rfl, hconsistent⟩
    have hconsistent := consistent_of_isConsistent hconsistent
    refine .bind ((ensureReplaySteps_ends _).mono ?_ fun _ _ hs' ↦ hs'.callFailure h)
    rintro _ _ ⟨rfl, hsteps⟩
    refine (executeOperation_ends h hconsistent (h.fits_of_eventCount rfl) hsteps).mono ?_ ?_
    · rintro _ _ ⟨hinv, hcommitted⟩
      exact .pure ⟨hinv, .drain hcommitted⟩
    · rintro _ _ ⟨hinv, hlog⟩
      exact ⟨hlog, hinv, fun _ ↦ hconsistent⟩
  | acknowledge batchId =>
    refine .bind (.get ?_)
    cases hbatches : s.pendingBatches with
    | nil => exact .throw ((Rejected.refl s).callFailure h)
    | cons batch batches =>
      dsimp only
      split
      · exact .throw ((Rejected.refl s).callFailure h)
      · next hid =>
        obtain rfl := not_not.mp hid
        exact .modify ⟨acknowledge_inv h hbatches, .acknowledge hbatches rfl⟩

/-! ### The invariant in runs -/

variable {world : σ}

theorem newContinuousSession_inv
    (h : newContinuousSession engine config world = .ok s) :
    ContinuousInv engine config s ∧ s.ledger = {} ∧ config.validateConfig = .ok () := by
  unfold newContinuousSession at h
  cases hconfig : config.validateConfig with
  | error e =>
    rw [hconfig] at h
    cases h
  | ok u =>
    rw [hconfig] at h
    dsimp only [bind, Except.bind] at h
    split at h
    · cases h
    · split at h
      · next session hcreate =>
        cases h
        refine ⟨⟨⟨Nat.zero_le _, Nat.zero_le _, Nat.zero_le _, Nat.zero_le _, rfl, Nat.zero_le _⟩,
          trivial, fun _ ↦ ⟨world, session, hcreate, rfl⟩, rfl⟩, rfl, rfl⟩
      · cases h

theorem ContinuousRun.of_ok {trace : List (Call × Bool)} {s s' : ContinuousSession σ}
    (hrun : ContinuousRun engine config world trace s) {call : Call}
    (h : call.run engine config s = .ok () s') :
    ContinuousRun engine config world ((call, true) :: trace) s' := by
  have hcall := hrun.call call
  rw [h] at hcall
  exact hcall

/-- **The invariant holds in every state of every run.** -/
theorem ContinuousRun.inv {trace : List (Call × Bool)}
    (h : ContinuousRun engine config world trace s) : ContinuousInv engine config s := by
  induction h with
  | start hnew => exact (newContinuousSession_inv hnew).1
  | call call _ ih =>
    exact ((call_ends call ih).mono (fun _ _ hs' ↦ hs'.1) fun _ _ hs' ↦ hs'.inv).state

/-! ### What holds of the rule session -/

/-- The operations of a rule session that come before the rules are fired keep a property of its
state where they succeed. -/
structure Prepares (engine : RuleEngine σ) (P : σ → Prop) : Prop where
  insertEventInto : ∀ {streamName fact time s p s'}, P s →
    engine.insertEventInto streamName fact time s = .ok p s' → P s'
  advanceEventTime : ∀ {w s expired s'}, P s → engine.advanceEventTime w s = .ok expired s' → P s'
  retractFrom : ∀ {streamName p s u s'}, P s → engine.retractFrom streamName p s = .ok u s' → P s'

/-- So does firing the rules. -/
structure Maintains (engine : RuleEngine σ) (P : σ → Prop) : Prop extends Prepares engine P where
  fireAllRulesFailFast : ∀ {maxRules s fired s'}, P s →
    engine.fireAllRulesFailFast maxRules s = .ok fired s' → P s'

variable (engine config) in
/-- The part of `execute_operation` before the rules are fired: the number of events expired. -/
def prepareOperation (operation : Operation) : EStateM Failure (ReplayedState σ) ℕ := do
  match operation with
  | .events events => do
    events.forM (applyEvent engine)
    pure 0
  | .watermark w => applyWatermark engine config w
  | .drain => pure 0

theorem applyOperation_eq (operation : Operation) :
    applyOperation engine config operation = (do
      let expired ← prepareOperation engine config operation
      let rulesFired ← onSession (engine.fireAllRulesFailFast config.maxRulesPerStep)
      return (rulesFired, expired)) := by
  cases operation with
  | events events =>
    unfold applyOperation prepareOperation
    simp only [bind_assoc]
  | watermark w => rfl
  | drain => rfl

namespace Prepares

variable {P : σ → Prop} (h : Prepares engine P)
include h

theorem applyEvent (event : EventEnvelope) {s : ReplayedState σ} (hs : P s.session) :
    (applyEvent engine event).Ends s (fun _ s' ↦ P s'.session) fun _ _ ↦ True := by
  unfold RulesForge.applyEvent
  cases event.fact with
  | none => exact .pure hs
  | some fact =>
    refine .bind ((onSession_ends _ s).mono ?_ fun _ _ _ ↦ trivial)
    rintro p _ ⟨session, hinsert, rfl⟩
    exact .modify (h.insertEventInto hs hinsert)

theorem prepareOperation (operation : Operation) {s : ReplayedState σ} (hs : P s.session) :
    (prepareOperation engine config operation).Ends s (fun _ s' ↦ P s'.session)
      fun _ _ ↦ True := by
  cases operation with
  | events events =>
    refine .bind ((Ends.forM (P := fun _ (s' : ReplayedState σ) ↦ P s'.session) hs ?_).mono
      (fun _ _ h' ↦ .pure h') fun _ _ h' ↦ h')
    exact fun hs₁ ↦ h.applyEvent _ hs₁
  | watermark w =>
    have hadvance : (engine.advanceEventTime w).Ends s.session (fun _ ↦ P) fun _ _ ↦ True := by
      unfold Ends
      cases hadvance : engine.advanceEventTime w s.session with
      | ok expired session => exact h.advanceEventTime hs hadvance
      | error failure session => trivial
    have hretract : ∀ {stream p session}, P session →
        (engine.retractFrom stream p).Ends session (fun _ ↦ P) fun _ _ ↦ True := by
      intro stream p session hsession
      unfold Ends
      cases hretract : engine.retractFrom stream p session with
      | ok _ session' => exact h.retractFrom hsession hretract
      | error failure session' => trivial
    exact (applyWatermark_ends (P := fun _ ↦ P) w s hadvance (fun _ _ ↦ hretract)
      fun _ _ h' ↦ h').mono (fun _ _ h' ↦ h'.2.2) fun _ _ _ ↦ trivial
  | drain => exact .pure hs

end Prepares

namespace Maintains

variable {P : σ → Prop} (h : Maintains engine P)
include h

theorem applyOperation (operation : Operation) {s : ReplayedState σ} (hs : P s.session) :
    (applyOperation engine config operation).Ends s (fun _ s' ↦ P s'.session) fun _ _ ↦ True := by
  rw [applyOperation_eq]
  refine .bind ((h.prepareOperation operation hs).mono (fun expired s₁ hs₁ ↦ ?_) fun _ _ h' ↦ h')
  refine .bind ((onSession_ends _ s₁).mono ?_ fun _ _ _ ↦ trivial)
  rintro _ _ ⟨session, hfire, rfl⟩
  exact .pure (h.fireAllRulesFailFast hs₁ hfire)

/-- **A property that new rule sessions have and their operations keep** holds in every state of
every run that is not marked inconsistent. -/
theorem continuousRun (hcreate : ∀ {w session}, engine.createSession w = .ok () session → P session)
    {trace : List (Call × Bool)} {s : ContinuousSession σ}
    (hrun : ContinuousRun engine config world trace s) (hconsistent : s.consistent = true) :
    P s.session := by
  obtain ⟨w, session, hsession, hreplay⟩ := hrun.inv.built hconsistent
  have hends : (replayOperations engine config s.committedOperations).Ends { session := session }
      (fun _ s' ↦ P s'.session) fun _ _ ↦ True := by
    refine Ends.forM (P := fun _ (s' : ReplayedState σ) ↦ P s'.session) (hcreate hsession) ?_
    intro operation _ s₁ hs₁
    exact .bind ((h.applyOperation operation hs₁).mono (fun _ _ h' ↦ .pure h') fun _ _ h' ↦ h')
  exact hends.of_ok hreplay

end Maintains

end RulesForge
