import RulesForge.Engine.ContinuousLedger

/-!
# The invariant of continuous sessions

A session that is not marked inconsistent is the one that replaying its log builds
(`ContinuousInv.built`), and every operation of the log fits into the bounds of the
configuration at its place. Each call keeps this on every way it can end, and with it the
bounds on the events, the log and the pending results (`ContinuousRun.inv`).
-/

namespace RulesForge

open EStateM

variable {σ α : Type} {engine : RuleEngine σ} {config : ContinuousSessionConfig}

/-! ### Logs -/

/-- Every operation of a log fits at its place. -/
def Ledger.FitsAll (config : ContinuousSessionConfig) : Ledger → List Operation → Prop
  | _, [] => True
  | l, operation :: operations =>
    l.Fits config operation ∧ (l.apply config operation).FitsAll config operations

/-- The ledger of a log. -/
def Ledger.replay (config : ContinuousSessionConfig) (operations : List Operation) : Ledger :=
  operations.foldl (Ledger.apply config) {}

variable {operations : List Operation} {operation : Operation} {s : ContinuousSession σ}

theorem Ledger.fitsAll_append {l : Ledger}
    (h : l.FitsAll config operations)
    (hfits : (operations.foldl (Ledger.apply config) l).Fits config operation) :
    l.FitsAll config (operations ++ [operation]) := by
  induction operations generalizing l with
  | nil => exact ⟨hfits, trivial⟩
  | cons first operations ih => exact ⟨h.1, ih h.2 hfits⟩

theorem Ledger.FitsAll.length {l : Ledger}
    (h : l.FitsAll config operations) (hactive : l.active.length ≤ config.maxActiveEvents)
    (hdedup : l.dedup.length ≤ config.maxDedupEntries) :
    (operations.foldl (Ledger.apply config) l).active.length ≤ config.maxActiveEvents ∧
      (operations.foldl (Ledger.apply config) l).dedup.length ≤ config.maxDedupEntries := by
  induction operations generalizing l with
  | nil => exact ⟨hactive, hdedup⟩
  | cons operation operations ih =>
    obtain ⟨hactive', hdedup'⟩ := l.length_apply config operation
    exact ih h.2 (hactive'.trans h.1.active) (hdedup'.trans h.1.dedup)

variable (engine config) in
/-- The operations of a log in the replayed part of a session. -/
def replayOperations (operations : List Operation) : EStateM Failure (ReplayedState σ) PUnit :=
  operations.forM fun operation ↦ do
    let _ ← applyOperation engine config operation

theorem replayOperations_append
    {s s₁ s' : ReplayedState σ} {r : ℤ × ℕ}
    (h : replayOperations engine config operations s = .ok () s₁)
    (h' : applyOperation engine config operation s₁ = .ok r s') :
    replayOperations engine config (operations ++ [operation]) s = .ok () s' := by
  induction operations generalizing s with
  | nil =>
    obtain ⟨-, rfl⟩ := EStateM.Result.ok.inj h
    change EStateM.bind (EStateM.bind (applyOperation engine config operation) _) _ s = _
    simp only [EStateM.bind, h']
    rfl
  | cons first operations ih =>
    change EStateM.bind (EStateM.bind (applyOperation engine config first) _) _ s = _ at h
    change EStateM.bind (EStateM.bind (applyOperation engine config first) _) _ s = _
    simp only [EStateM.bind] at h ⊢
    cases hfirst : applyOperation engine config first s with
    | error e s₂ =>
      rw [hfirst] at h
      cases h
    | ok a s₂ =>
      rw [hfirst] at h
      exact ih h

/-- What is built from a log has its ledger. -/
theorem ledger_of_replayOperations {s s' : ReplayedState σ}
    (h : replayOperations engine config operations s = .ok () s') :
    s'.ledger = operations.foldl (Ledger.apply config) s.ledger := by
  have hends : (replayOperations engine config operations).Ends s
      (fun _ s' ↦ s'.ledger = operations.foldl (Ledger.apply config) s.ledger) fun _ _ ↦ True := by
    refine Ends.mono (Ends.forM (P := fun rest (s' : ReplayedState σ) ↦
      rest.foldl (Ledger.apply config) s'.ledger = operations.foldl (Ledger.apply config) s.ledger)
      rfl ?_) (fun _ _ h ↦ h) fun _ _ h ↦ h
    intro operation rest s₁ hs₁
    refine .bind ((applyOperation_ends operation s₁).mono (fun _ s₂ hs₂ ↦ .pure ?_) fun _ _ _ ↦
      trivial)
    rw [hs₂]
    exact hs₁
  exact hends.of_ok h

/-! ### The invariant -/

/-- The sizes of a session are within the bounds of its configuration. -/
structure WithinBounds (config : ContinuousSessionConfig) (s : ContinuousSession σ) : Prop where
  active : s.activeEvents.length ≤ config.maxActiveEvents
  dedup : s.dedupEventTimes.length ≤ config.maxDedupEntries
  committed : s.committedOperations.length ≤ config.maxReplaySteps
  batches : s.pendingBatches.length ≤ config.maxPendingResultBatches
  results_eq : s.metrics.pendingResults = (s.pendingBatches.map PendingBatch.outputCount).sum
  results : s.metrics.pendingResults ≤ config.maxPendingResults

/-- The rule session and the ledger are what a replay of the log builds. -/
def Rebuilt (engine : RuleEngine σ) (config : ContinuousSessionConfig)
    (operations : List Operation) (s : ReplayedState σ) : Prop :=
  ∃ world session, engine.createSession world = .ok () session ∧
    replayOperations engine config operations { session := session } = .ok () s

theorem Rebuilt.ledger_eq {s : ReplayedState σ}
    (h : Rebuilt engine config operations s) : s.ledger = Ledger.replay config operations := by
  obtain ⟨world, session, -, hreplay⟩ := h
  exact ledger_of_replayOperations hreplay

/-- What every call keeps. -/
structure ContinuousInv (engine : RuleEngine σ) (config : ContinuousSessionConfig)
    (s : ContinuousSession σ) : Prop extends WithinBounds config s where
  fits : Ledger.FitsAll config {} s.committedOperations
  built : s.consistent = true → Rebuilt engine config s.committedOperations s.toReplayedState
  replaying : s.replaying = false

/-- Nothing but the replayed part, the flags and the counts of rejections has changed. -/
structure SameLog (s s' : ContinuousSession σ) : Prop where
  committed : s'.committedOperations = s.committedOperations
  batches : s'.pendingBatches = s.pendingBatches
  nextBatchId : s'.nextBatchId = s.nextBatchId
  accepted : s'.metrics.acceptedEvents = s.metrics.acceptedEvents
  expired : s'.metrics.expiredEvents = s.metrics.expiredEvents
  results : s'.metrics.pendingResults = s.metrics.pendingResults

theorem SameLog.refl (s : ContinuousSession σ) : SameLog s s := ⟨rfl, rfl, rfl, rfl, rfl, rfl⟩

theorem SameLog.trans {s s' s'' : ContinuousSession σ} (h : SameLog s s') (h' : SameLog s' s'') :
    SameLog s s'' where
  committed := h'.committed.trans h.committed
  batches := h'.batches.trans h.batches
  nextBatchId := h'.nextBatchId.trans h.nextBatchId
  accepted := h'.accepted.trans h.accepted
  expired := h'.expired.trans h.expired
  results := h'.results.trans h.results

/-- The bounds depend on the log and on the numbers of events. -/
theorem WithinBounds.sameLog {s s' : ContinuousSession σ} (h : WithinBounds config s)
    (hlog : SameLog s s') (hactive : s'.activeEvents.length ≤ config.maxActiveEvents)
    (hdedup : s'.dedupEventTimes.length ≤ config.maxDedupEntries) : WithinBounds config s' where
  active := hactive
  dedup := hdedup
  committed := by
    rw [hlog.committed]
    exact h.committed
  batches := by
    rw [hlog.batches]
    exact h.batches
  results_eq := by
    rw [hlog.results, hlog.batches]
    exact h.results_eq
  results := by
    rw [hlog.results]
    exact h.results

/-! ### Replay -/

theorem onReplayed_ends (x : EStateM Failure (ReplayedState σ) α) (s : ContinuousSession σ) :
    (onReplayed x).Ends s
      (fun a s' ↦ ∃ state, x s.toReplayedState = .ok a state ∧
        s' = { s with toReplayedState := state })
      fun e s' ↦ ∃ state, x s.toReplayedState = .error e state ∧
        s' = { s with toReplayedState := state } := by
  unfold Ends onReplayed
  cases hx : x s.toReplayedState with
  | ok a state => exact ⟨state, rfl, rfl⟩
  | error e state => exact ⟨state, rfl, rfl⟩

/-- An operation that is replayed. -/
theorem executeReplayed_ends (operation : Operation)
    (hreplaying : s.replaying = true) (hfits : s.ledger.Fits config operation) :
    (executeOperationWith engine config (pure ()) operation false false).Ends s
      (fun _ s' ↦ ∃ r state, applyOperation engine config operation s.toReplayedState = .ok r state ∧
        s' = { s with toReplayedState := state })
      fun _ s' ↦ ∃ state, s' = { s with toReplayedState := state, consistent := false } ∧
        state.activeEvents.length ≤ config.maxActiveEvents ∧
        state.dedupEventTimes.length ≤ config.maxDedupEntries := by
  unfold executeOperationWith
  refine .tryCatch ?_
  unfold tryOperation
  refine .bind (.get (.bind ((onReplayed_ends _ s).mono ?_ ?_)))
  · rintro ⟨rulesFired, expired⟩ _ ⟨state, happly, rfl⟩
    exact .bind (.get (.pure ⟨_, state, happly, rfl⟩))
  · rintro e _ ⟨state, happly, rfl⟩
    refine .bind (.get ?_)
    simp only [hreplaying, if_true]
    refine .bind (.modify (.throw ⟨state, rfl, ?_⟩))
    obtain ⟨hactive, hdedup⟩ := (applyOperation_ends operation s.toReplayedState).of_error happly
    have hfitsActive := hfits.active
    have hfitsDedup := hfits.dedup
    simp only [ReplayedState.ledger, List.length_map] at hfitsActive hfitsDedup
    omega

/-- The loop of a replay, for a log that fits. -/
theorem replayLoop_ends (operations : List Operation)
    (hreplaying : s.replaying = true) (hfits : s.ledger.FitsAll config operations) :
    (operations.forM (replayOperation engine config)).Ends s
      (fun _ s' ↦ ∃ state,
        replayOperations engine config operations s.toReplayedState = .ok () state ∧
        s' = { s with toReplayedState := state })
      fun _ s' ↦ ∃ state, s' = { s with toReplayedState := state, consistent := false } ∧
        state.activeEvents.length ≤ config.maxActiveEvents ∧
        state.dedupEventTimes.length ≤ config.maxDedupEntries := by
  induction operations generalizing s with
  | nil => exact ⟨s.toReplayedState, rfl, rfl⟩
  | cons operation operations ih =>
    refine .bind (Ends.bind ((executeReplayed_ends operation hreplaying hfits.1).mono ?_ ?_))
    · rintro _ _ ⟨r, state, happly, rfl⟩
      have hledger := (applyOperation_ends operation s.toReplayedState).of_ok happly
      refine .pure ((ih (s := { s with toReplayedState := state }) hreplaying ?_).mono ?_ ?_)
      · change state.ledger.FitsAll config operations
        rw [hledger]
        exact hfits.2
      · rintro _ _ ⟨state', hreplay, rfl⟩
        refine ⟨state', ?_, rfl⟩
        change EStateM.bind (EStateM.bind (applyOperation engine config operation) _) _ _ = _
        simp only [EStateM.bind, happly]
        exact hreplay
      · rintro _ _ ⟨state', rfl, hbounds⟩
        exact ⟨state', rfl, hbounds⟩
    · rintro _ _ ⟨state, rfl, hbounds⟩
      exact ⟨state, rfl, hbounds⟩

variable (engine) in
theorem replayCommitted_ends (hreplaying : s.replaying = true)
    (hfits : s.ledger.FitsAll config s.committedOperations) :
    (replayCommitted engine config).Ends s
      (fun _ s' ↦ ∃ state,
        replayOperations engine config s.committedOperations s.toReplayedState = .ok () state ∧
        s' = { s with toReplayedState := state })
      fun _ s' ↦ ∃ state, s' = { s with toReplayedState := state, consistent := false } ∧
        state.activeEvents.length ≤ config.maxActiveEvents ∧
        state.dedupEventTimes.length ≤ config.maxDedupEntries :=
  .bind (.get (replayLoop_ends s.committedOperations hreplaying hfits))

theorem recoverByReplay_ends (hbounds : WithinBounds config s)
    (hfits : Ledger.FitsAll config {} s.committedOperations) (hreplaying : s.replaying = false) :
    (recoverByReplay engine config).Ends s
      (fun _ s' ↦ ContinuousInv engine config s' ∧ SameLog s s' ∧ s'.consistent = true)
      fun _ s' ↦ WithinBounds config s' ∧ SameLog s s' ∧ s'.replaying = false := by
  unfold recoverByReplay
  refine .bind ((onReplayed_ends _ s).mono ?_ ?_)
  · rintro _ _ ⟨state, hcreate, rfl⟩
    obtain ⟨session, hsession, rfl⟩ := (onSession_ends _ s.toReplayedState).of_ok hcreate
    let s₁ : ContinuousSession σ :=
      { s with toReplayedState := { session := session }, replaying := true }
    refine .bind (.modify (.bind (.get (.bind (.tryCatch ?_)))))
    refine (replayCommitted_ends engine (s := s₁) rfl hfits).mono ?_ ?_
    · rintro _ _ ⟨state, hreplay, rfl⟩
      have hbuilt : Rebuilt engine config s.committedOperations state :=
        ⟨s.session, session, hsession, hreplay⟩
      obtain ⟨hactive, hdedup⟩ := hfits.length (Nat.zero_le _) (Nat.zero_le _)
      have hledger : state.ledger = s.committedOperations.foldl (Ledger.apply config) {} :=
        hbuilt.ledger_eq
      rw [← hledger] at hactive hdedup
      simp only [ReplayedState.ledger, List.length_map] at hactive hdedup
      refine .modify ?_
      refine ⟨⟨hbounds.sameLog ⟨rfl, rfl, rfl, rfl, rfl, rfl⟩ hactive hdedup, hfits,
        fun _ ↦ hbuilt, rfl⟩, ⟨rfl, rfl, rfl, rfl, rfl, rfl⟩, rfl⟩
    · rintro _ _ ⟨state, rfl, hactive, hdedup⟩
      refine .bind (.modify (.throw ?_))
      exact ⟨hbounds.sameLog ⟨rfl, rfl, rfl, rfl, rfl, rfl⟩ hactive hdedup,
        ⟨rfl, rfl, rfl, rfl, rfl, rfl⟩, rfl⟩
  · rintro _ _ ⟨state, hcreate, rfl⟩
    obtain ⟨session, -, rfl⟩ := (onSession_ends _ s.toReplayedState).of_error hcreate
    have hlog : SameLog s { s with session := session } := ⟨rfl, rfl, rfl, rfl, rfl, rfl⟩
    exact ⟨hbounds.sameLog hlog hbounds.active hbounds.dedup, hlog, hreplaying⟩

/-! ### Steps -/

/-- The effect of a step that succeeds. -/
structure Committed (engine : RuleEngine σ) (config : ContinuousSessionConfig)
    (operation : Operation) (s s' : ContinuousSession σ) : Prop where
  applied : ∃ r, applyOperation engine config operation s.toReplayedState =
    .ok r s'.toReplayedState
  committed : s'.committedOperations = s.committedOperations ++ [operation]
  published : ∃ count, s'.pendingBatches = s.pendingBatches ++ [⟨s.nextBatchId, count⟩] ∧
    s'.metrics.pendingResults = s.metrics.pendingResults + count ∧
    s.pendingBatches.length < config.maxPendingResultBatches ∧
    s.metrics.pendingResults + count ≤ config.maxPendingResults
  consistent : s'.consistent = s.consistent
  replaying : s'.replaying = s.replaying

theorem Committed.ledger_eq {s s' : ContinuousSession σ}
    (h : Committed engine config operation s s') :
    s'.ledger = s.ledger.apply config operation := by
  obtain ⟨r, happly⟩ := h.applied
  exact (applyOperation_ends operation s.toReplayedState).of_ok happly

theorem rejectResourceLimit_ends (failure : Failure) (s : ContinuousSession σ) {ok : α → _ → Prop} :
    (rejectResourceLimit failure).Ends s ok fun _ s' ↦ s' = { s with
      metrics := { s.metrics with
        rejectedResourceLimits := s.metrics.rejectedResourceLimits + 1 } } :=
  .bind (.modify (.throw rfl))

theorem publishResult_ends (rulesFired : ℤ) (expired : ℕ) (firstNewFactId : ℤ)
    (s : ContinuousSession σ) :
    (publishResult engine config rulesFired expired firstNewFactId).Ends s
      (fun _ s' ↦ ∃ count, s' = { s with
          pendingBatches := s.pendingBatches ++ [⟨s.nextBatchId, count⟩]
          nextBatchId := s.nextBatchId + 1
          metrics := { s.metrics with pendingResults := s.metrics.pendingResults + count } } ∧
        s.pendingBatches.length < config.maxPendingResultBatches ∧
        s.metrics.pendingResults + count ≤ config.maxPendingResults)
      fun _ s' ↦ s' = { s with
        metrics := { s.metrics with
          rejectedResourceLimits := s.metrics.rejectedResourceLimits + 1 } } := by
  unfold publishResult
  refine .bind (.get ?_)
  dsimp only
  split
  · exact rejectResourceLimit_ends _ s
  · next hroom =>
    refine .bind (.modify (.pure ⟨_, rfl, ?_⟩))
    omega

/-- A step in the log: it commits, or it leaves the log as it was. -/
theorem tryOperation_ends (operation : Operation) (s : ContinuousSession σ) :
    (tryOperation engine config operation true true).Ends s
      (fun _ s' ↦ Committed engine config operation s s')
      fun _ s' ↦ SameLog s s' ∧ s'.replaying = s.replaying ∧
        s'.activeEvents.length ≤ s.activeEvents.length + operation.eventCount ∧
        s'.dedupEventTimes.length ≤ s.dedupEventTimes.length + operation.eventCount := by
  unfold tryOperation
  refine .bind (.get (.bind ((onReplayed_ends _ s).mono ?_ ?_)))
  · rintro ⟨rulesFired, expired⟩ _ ⟨state, happly, rfl⟩
    refine .bind (.modify (.tryCatch ((publishResult_ends _ _ _ _).mono ?_ ?_)))
    · rintro _ _ ⟨count, rfl, hbatches, hresults⟩
      exact ⟨⟨_, happly⟩, rfl, ⟨count, rfl, rfl, hbatches, hresults⟩, rfl, rfl⟩
    · rintro _ _ rfl
      have hledger := (applyOperation_ends operation s.toReplayedState).of_ok happly
      obtain ⟨hactive, hdedup⟩ := s.ledger.length_apply config operation
      rw [← hledger] at hactive hdedup
      simp only [ReplayedState.ledger, List.length_map] at hactive hdedup
      refine .bind (.modify (.throw ⟨?_, rfl, hactive, hdedup⟩))
      exact ⟨by simp [recordOperation, unrecordOperation], rfl, rfl,
        by simp [recordOperation, unrecordOperation],
        by simp [recordOperation, unrecordOperation], rfl⟩
  · rintro _ _ ⟨state, happly, rfl⟩
    exact ⟨⟨rfl, rfl, rfl, rfl, rfl, rfl⟩, rfl,
      (applyOperation_ends operation s.toReplayedState).of_error happly⟩

/-- **A step keeps the invariant**, whether it commits or fails. -/
theorem executeOperation_ends
    (h : ContinuousInv engine config s) (hconsistent : s.consistent = true)
    (hfits : s.ledger.Fits config operation)
    (hroom : s.committedOperations.length < config.maxReplaySteps) :
    (executeOperation engine config operation true true).Ends s
      (fun _ s' ↦ ContinuousInv engine config s' ∧ Committed engine config operation s s')
      fun _ s' ↦ ContinuousInv engine config s' ∧ SameLog s s' := by
  unfold executeOperation executeOperationWith
  refine .tryCatch ((tryOperation_ends operation s).mono (fun _ s' hs' ↦ ⟨?_, hs'⟩) ?_)
  · obtain ⟨r, happly⟩ := hs'.applied
    obtain ⟨world, session, hcreate, hreplay⟩ := h.built hconsistent
    obtain ⟨count, hbatches, hresults, hroomBatches, hroomResults⟩ := hs'.published
    have hledger := hs'.ledger_eq
    obtain ⟨hactive, hdedup⟩ := s.ledger.length_apply config operation
    rw [← hledger] at hactive hdedup
    have hactive := hactive.trans hfits.active
    have hdedup := hdedup.trans hfits.dedup
    simp only [ReplayedState.ledger, List.length_map] at hactive hdedup
    refine ⟨⟨hactive, hdedup, ?_, ?_, ?_, ?_⟩, ?_, fun _ ↦ ?_, hs'.replaying.trans h.replaying⟩
    · rw [hs'.committed, List.length_append, List.length_singleton]
      omega
    · rw [hbatches, List.length_append, List.length_singleton]
      omega
    · rw [hresults, hbatches, h.results_eq]
      simp
    · rw [hresults]
      exact hroomResults
    · rw [hs'.committed]
      refine Ledger.fitsAll_append h.fits ?_
      rw [show s.committedOperations.foldl (Ledger.apply config) {} = s.ledger from
        (h.built hconsistent).ledger_eq.symm]
      exact hfits
    · rw [hs'.committed]
      exact ⟨world, session, hcreate, replayOperations_append hreplay happly⟩
  · rintro _ s₁ ⟨hlog, hreplaying, hactive, hdedup⟩
    have hfitsActive := hfits.active
    have hfitsDedup := hfits.dedup
    simp only [ReplayedState.ledger, List.length_map] at hfitsActive hfitsDedup
    have hbounds : WithinBounds config s₁ := h.toWithinBounds.sameLog hlog (by omega) (by omega)
    have hfits₁ : Ledger.FitsAll config {} s₁.committedOperations := by
      rw [hlog.committed]
      exact h.fits
    have hreplaying₁ : s₁.replaying = false := hreplaying.trans h.replaying
    refine .bind (.get ?_)
    simp only [hreplaying₁, Bool.false_eq_true, if_false]
    refine .bind (.tryCatch ((recoverByReplay_ends hbounds hfits₁ hreplaying₁).mono ?_ ?_))
    · rintro _ s₂ ⟨hinv, hlog', -⟩
      exact .throw ⟨hinv, hlog.trans hlog'⟩
    · rintro _ s₂ ⟨hbounds₂, hlog', hreplaying₂⟩
      have hlog₂ : SameLog s s₂ := hlog.trans hlog'
      refine .modify (.throw ⟨⟨⟨hbounds₂.active, hbounds₂.dedup, hbounds₂.committed,
        hbounds₂.batches, hbounds₂.results_eq, hbounds₂.results⟩, ?_, fun hc ↦ ?_, hreplaying₂⟩,
        hlog₂.committed, hlog₂.batches, hlog₂.nextBatchId, hlog₂.accepted, hlog₂.expired,
        hlog₂.results⟩)
      · change Ledger.FitsAll config {} s₂.committedOperations
        rw [hlog₂.committed]
        exact h.fits
      · cases hc

end RulesForge
