import RulesForge.Engine.ContinuousRetention
import RulesForge.Engine.MemoryUse

/-!
# Delivery of results

Every step that succeeds publishes a batch: its outputs are the facts of working memory whose id
is not below the counter of ids at the start of the step. Batches are numbered from one on, in
order, and acknowledged in order. A failed step goes back to the session of the log, whose
counter is the one before the step where rule sessions start alike, so that no fact is published
twice (`output_delivery`).
-/

namespace RulesForge

open EStateM

variable {σ : Type}

/-! ### Runs with their results -/

section Runs

variable (engine : RuleEngine σ) (config : ContinuousSessionConfig)

/-- A call with the batch it publishes. -/
def Call.execute : Call → EStateM Failure (ContinuousSession σ) (Option ContinuousStepResult)
  | .pushBatch events => do return some (← RulesForge.pushBatch engine config events)
  | .advanceWatermark w => do return some (← RulesForge.advanceWatermark engine config w)
  | .drain => do return some (← RulesForge.drain engine config)
  | .acknowledge batchId => do
    RulesForge.acknowledge batchId
    return none

/-- The operation that a step applies. -/
def Call.operation : Call → Option Operation
  | .pushBatch events => some (.events (events.map cloneEnvelope))
  | .advanceWatermark w => some (.watermark w)
  | .drain => some .drain
  | .acknowledge _ => none

/-- The runs from a new session: the published batches in order, the number of acknowledged
ones, and the session that is left. -/
inductive DeliveryRun (world : σ) :
    List ContinuousStepResult → ℕ → ContinuousSession σ → Prop
  | start {s} : newContinuousSession engine config world = .ok s → DeliveryRun world [] 0 s
  | published {results acknowledged s result s'} (call : Call) :
      DeliveryRun world results acknowledged s →
      call.execute engine config s = .ok (some result) s' →
      DeliveryRun world (results ++ [result]) acknowledged s'
  | acknowledged {results acknowledged s s'} (call : Call) :
      DeliveryRun world results acknowledged s → call.execute engine config s = .ok none s' →
      DeliveryRun world results (acknowledged + 1) s'
  | failed {results acknowledged s failure s'} (call : Call) :
      DeliveryRun world results acknowledged s → call.execute engine config s = .error failure s' →
      DeliveryRun world results acknowledged s'

/-- The published batches, the number of acknowledged ones and the session after a call. -/
def deliver (d : List ContinuousStepResult × ℕ × ContinuousSession σ) (call : Call) :
    List ContinuousStepResult × ℕ × ContinuousSession σ :=
  match call.execute engine config d.2.2 with
  | .ok (some result) s => (d.1 ++ [result], d.2.1, s)
  | .ok none s => (d.1, d.2.1 + 1, s)
  | .error _ s => (d.1, d.2.1, s)

variable {engine config}

theorem DeliveryRun.deliver {world : σ} {d : List ContinuousStepResult × ℕ × ContinuousSession σ}
    (h : DeliveryRun engine config world d.1 d.2.1 d.2.2) (calls : List Call) :
    let d' := calls.foldl (deliver engine config) d
    DeliveryRun engine config world d'.1 d'.2.1 d'.2.2 := by
  induction calls generalizing d with
  | nil => exact h
  | cons call calls ih =>
    refine ih ?_
    unfold RulesForge.deliver
    split
    · next hcall => exact .published call h hcall
    · next hcall => exact .acknowledged call h hcall
    · next hcall => exact .failed call h hcall

/-- A result without its value. -/
def discard {α : Type} : Result Failure (ContinuousSession σ) α →
    Result Failure (ContinuousSession σ) Unit
  | .ok _ s => .ok () s
  | .error failure s => .error failure s

theorem discard_bind {α β : Type} (x : EStateM Failure (ContinuousSession σ) α) (f : α → β)
    (s : ContinuousSession σ) : discard ((x >>= fun a ↦ pure (f a)) s) = discard (x s) := by
  change discard (EStateM.bind x (fun a ↦ pure (f a)) s) = discard (x s)
  unfold EStateM.bind
  cases x s <;> rfl

theorem discard_unit (r : Result Failure (ContinuousSession σ) Unit) : discard r = r := by
  cases r <;> rfl

/-- A call without its result leaves the same session. -/
theorem Call.run_eq (call : Call) (s : ContinuousSession σ) :
    call.run engine config s = discard (call.execute engine config s) := by
  rw [← discard_unit (call.run engine config s)]
  cases call with
  | pushBatch events => exact (discard_bind _ _ s).trans (discard_bind _ some s).symm
  | advanceWatermark w => exact (discard_bind _ _ s).trans (discard_bind _ some s).symm
  | drain => exact (discard_bind _ _ s).trans (discard_bind _ some s).symm
  | acknowledge batchId => exact (discard_bind _ (fun _ ↦ none) s).symm

theorem DeliveryRun.continuousRun {world : σ} {results : List ContinuousStepResult}
    {acknowledged : ℕ} {s : ContinuousSession σ}
    (h : DeliveryRun engine config world results acknowledged s) :
    ∃ trace, ContinuousRun engine config world trace s := by
  have hcall : ∀ {s s' : ContinuousSession σ} (call : Call), (call.run engine config s).state = s' →
      (∃ trace, ContinuousRun engine config world trace s) →
      ∃ trace, ContinuousRun engine config world trace s' := by
    rintro s _ call rfl ⟨trace, hrun⟩
    exact ⟨_, hrun.call call⟩
  induction h with
  | start hnew => exact ⟨[], .start hnew⟩
  | published call _ h ih => exact hcall call (by rw [call.run_eq, h]; rfl) ih
  | acknowledged call _ h ih => exact hcall call (by rw [call.run_eq, h]; rfl) ih
  | failed call _ h ih => exact hcall call (by rw [call.run_eq, h]; rfl) ih

end Runs

/-! ### Published batches -/

section Published

variable {engine : RuleEngine σ} {config : ContinuousSessionConfig}

/-- What a step that succeeds publishes, and how it comes about. -/
structure Published (engine : RuleEngine σ) (config : ContinuousSessionConfig)
    (s s' : ContinuousSession σ) (result : ContinuousStepResult) : Prop where
  applied : ∃ operation r, applyOperation engine config operation s.toReplayedState =
    .ok r s'.toReplayedState
  batchId : result.batchId = s.nextBatchId
  next : s'.nextBatchId = s.nextBatchId + 1
  pending : s'.pendingBatches.map PendingBatch.id =
    s.pendingBatches.map PendingBatch.id ++ [s.nextBatchId]
  outputs : result.outputs = collectOutputs engine config (engine.nextFactId s.session) s'.session

theorem publishResult_published (rulesFired : ℤ) (expired : ℕ) (firstNewFactId : ℤ)
    (s : ContinuousSession σ) :
    (publishResult engine config rulesFired expired firstNewFactId).Ends s
      (fun result s' ↦ result.batchId = s.nextBatchId ∧
        result.outputs = collectOutputs engine config firstNewFactId s.session ∧
        s'.toReplayedState = s.toReplayedState ∧ s'.nextBatchId = s.nextBatchId + 1 ∧
        s'.pendingBatches.map PendingBatch.id =
          s.pendingBatches.map PendingBatch.id ++ [s.nextBatchId])
      fun _ _ ↦ True := by
  unfold publishResult
  refine .bind (.get ?_)
  dsimp only
  split
  · exact (rejectResourceLimit_ends _ s).mono (fun _ _ h ↦ h) fun _ _ _ ↦ trivial
  · exact .bind (.modify (.pure ⟨rfl, rfl, rfl, rfl, by simp⟩))

/-- A step that fails throws its failure again, whatever becomes of the recovery. -/
theorem executeOperation_of_try {operation : Operation} {s : ContinuousSession σ}
    {Q : ContinuousStepResult → ContinuousSession σ → Prop}
    (h : (tryOperation engine config operation true true).Ends s Q fun _ _ ↦ True) :
    (executeOperation engine config operation true true).Ends s Q fun _ _ ↦ True := by
  refine .tryCatch (h.mono (fun _ _ h ↦ h) fun _ s₁ _ ↦ .bind (.get ?_))
  split
  · exact .bind (.modify (.throw trivial))
  · exact .bind (Ends.trivial.mono (fun _ _ _ ↦ .throw trivial) fun _ _ h ↦ h)

theorem executeOperation_published (operation : Operation) (s : ContinuousSession σ) :
    (executeOperation engine config operation true true).Ends s
      (fun result s' ↦ Published engine config s s' result) fun _ _ ↦ True := by
  refine executeOperation_of_try ?_
  unfold tryOperation
  refine .bind (.get (.bind ((onReplayed_ends _ s).mono ?_ fun _ _ _ ↦ trivial)))
  rintro ⟨rulesFired, expired⟩ _ ⟨state, happly, rfl⟩
  refine .bind (.modify (.tryCatch ((publishResult_published _ _ _ _).mono ?_ ?_)))
  · rintro result s' ⟨hbatchId, houtputs, hreplayed, hnext, hpending⟩
    have hsession : s'.toReplayedState = state := hreplayed
    refine ⟨⟨operation, _, hsession ▸ happly⟩, hbatchId, hnext, hpending, ?_⟩
    rw [hsession]
    exact houtputs
  · exact fun _ _ _ ↦ .bind (.modify (.throw trivial))

/-- A call that succeeds has applied its operation to a consistent session, or acknowledged the
oldest batch. -/
theorem Call.execute_ends (call : Call) (s : ContinuousSession σ)
    {Q : ContinuousStepResult → ContinuousSession σ → Prop}
    (hstep : ∀ operation ∈ call.operation, s.isConsistent engine = true →
      (executeOperation engine config operation true true).Ends s Q fun _ _ ↦ True) :
    (call.execute engine config).Ends s
      (fun result s' ↦
        match result with
        | some result => Q result s'
        | none => s'.toReplayedState = s.toReplayedState ∧ s'.consistent = s.consistent ∧
          s'.nextBatchId = s.nextBatchId ∧ ∃ batch, s.pendingBatches = batch :: s'.pendingBatches)
      fun _ _ ↦ True := by
  cases call with
  | pushBatch events =>
    refine .bind (.bind ((validateEvents_ends events s).mono ?_ fun _ _ _ ↦ trivial))
    rintro _ _ ⟨rfl, hadmitted⟩
    exact (hstep _ rfl hadmitted.consistent).mono (fun _ _ h ↦ .pure h) fun _ _ h ↦ h
  | advanceWatermark w =>
    refine .bind (.bind ((ensureConsistent_ends s).mono ?_ fun _ _ _ ↦ trivial))
    rintro _ _ ⟨rfl, hconsistent⟩
    refine .bind (.get ?_)
    split
    · exact .throw trivial
    · refine .bind ((ensureReplaySteps_ends _).mono ?_ fun _ _ _ ↦ trivial)
      rintro _ _ ⟨rfl, -⟩
      exact (hstep _ rfl hconsistent).mono (fun _ _ h ↦ .pure h) fun _ _ h ↦ h
  | drain =>
    refine .bind (.bind ((ensureConsistent_ends s).mono ?_ fun _ _ _ ↦ trivial))
    rintro _ _ ⟨rfl, hconsistent⟩
    refine .bind ((ensureReplaySteps_ends _).mono ?_ fun _ _ _ ↦ trivial)
    rintro _ _ ⟨rfl, -⟩
    exact (hstep _ rfl hconsistent).mono (fun _ _ h ↦ .pure h) fun _ _ h ↦ h
  | acknowledge batchId =>
    refine .bind (.bind (.get ?_))
    cases hbatches : s.pendingBatches with
    | nil => exact .throw trivial
    | cons batch batches =>
      dsimp only
      split
      · exact .throw trivial
      · exact .modify (.pure ⟨rfl, rfl, rfl, batch, rfl⟩)

/-- **A call publishes the next batch, or none.** -/
theorem Call.execute_published (call : Call) (s : ContinuousSession σ) :
    (call.execute engine config).Ends s
      (fun result s' ↦
        match result with
        | some result => s.consistent = true ∧ Published engine config s s' result
        | none => s'.toReplayedState = s.toReplayedState ∧ s'.consistent = s.consistent ∧
          s'.nextBatchId = s.nextBatchId ∧ ∃ batch, s.pendingBatches = batch :: s'.pendingBatches)
      fun _ _ ↦ True :=
  call.execute_ends s fun operation _ hconsistent ↦
    (executeOperation_published operation s).mono
      (fun _ _ h ↦ ⟨consistent_of_isConsistent hconsistent, h⟩) fun _ _ h ↦ h

end Published

/-! ### Ids -/

section Ids

variable {engine : RuleEngine σ} {config : ContinuousSessionConfig} {memory : σ → MemoryState}
  (huses : UsesWorkingMemory engine memory)

include huses

/-- **An operation uses working memory** as the rule session does. -/
theorem applyOperation_uses (operation : Operation) {s : ReplayedState σ}
    (hinv : MemoryInv (memory s.session)) :
    (applyOperation engine config operation).Ends s
      (fun _ s' ↦ MemoryRun (memory s.session) (memory s'.session)) fun _ _ ↦ True := by
  let P (session : σ) : Prop := MemoryRun (memory s.session) (memory session)
  have hP : ∀ {session : σ}, P session → MemoryInv (memory session) := fun h ↦ (h.inv hinv).1
  have hmaintains : Maintains engine P :=
    { insertEventInto := fun hs h ↦ hs.trans (huses.insertEventInto (hP hs) h)
      advanceEventTime := fun hs h ↦ hs.trans (huses.advanceEventTime (hP hs) h)
      retractFrom := fun hs h ↦ hs.trans (huses.retractFrom (hP hs) h)
      fireAllRulesFailFast := fun hs h ↦ hs.trans (huses.fireAllRulesFailFast (hP hs) h) }
  exact hmaintains.applyOperation operation .refl

/-- The outputs of a step are in the order of their ids, from the counter before the step on and
below the counter after it. -/
theorem collectOutputs_spec (config : ContinuousSessionConfig) (firstNewFactId : ℤ) {session : σ}
    (hinv : MemoryInv (memory session)) :
    let outputs := collectOutputs engine config firstNewFactId session
    outputs.Pairwise (fun a b ↦ a.id < b.id) ∧
      ∀ fact ∈ outputs, firstNewFactId ≤ fact.id ∧ fact.id < engine.nextFactId session := by
  intro outputs
  have hperm : outputs.Perm ((engine.factsSnapshot session).filter fun fact ↦
      firstNewFactId ≤ fact.id ∧ fact.type ∈ config.outputFactTypes) :=
    List.perm_insertionSort _ _
  have hids : (engine.factsSnapshot session).map Fact.id =
      (memory session).2.facts.map Prod.fst := by
    rw [huses.factsSnapshot, List.map_map]
    exact List.map_congr_left fun entry hentry ↦ hinv.id_eq entry hentry
  have hnodup : (outputs.map Fact.id).Nodup := by
    rw [(hperm.map Fact.id).nodup_iff]
    refine List.Nodup.sublist (List.Sublist.map _ List.filter_sublist) ?_
    rw [hids]
    exact hinv.unique
  constructor
  · have hsorted : outputs.Pairwise fun a b ↦ a.id ≤ b.id :=
      List.pairwise_insertionSort (fun a b : Fact ↦ a.id ≤ b.id) _
    exact hsorted.imp₂ (fun a b hle hne ↦ lt_of_le_of_ne hle hne) (List.pairwise_map.mp hnodup)
  · intro fact hfact
    obtain ⟨hsnapshot, hnew⟩ := List.mem_filter.mp (hperm.mem_iff.mp hfact)
    have hmem : fact.id ∈ (memory session).2.facts.map Prod.fst :=
      hids ▸ List.mem_map_of_mem hsnapshot
    obtain ⟨entry, hentry, hid⟩ := List.mem_map.mp hmem
    rw [huses.nextFactId, ← hid]
    exact ⟨by simpa [hid] using (of_decide_eq_true hnew).1, hinv.id_lt entry hentry⟩

end Ids

/-! ### Delivery -/

section Delivery

variable {engine : RuleEngine σ} {config : ContinuousSessionConfig} {memory : σ → MemoryState}
  {results : List ContinuousStepResult} {acknowledged : ℕ} {s s' : ContinuousSession σ}

/-- The outputs of one batch come before those of another. -/
def OutputsBefore (r r' : ContinuousStepResult) : Prop :=
  ∀ fact ∈ r.outputs, ∀ fact' ∈ r'.outputs, fact.id < fact'.id

/-- Batches are numbered from one on, and their outputs are in the order of their ids. -/
structure Ordered (results : List ContinuousStepResult) : Prop where
  batchIds : results.map ContinuousStepResult.batchId = List.range' 1 results.length
  sorted : ∀ r ∈ results, r.outputs.Pairwise fun a b ↦ a.id < b.id
  before : results.Pairwise OutputsBefore

/-- The session that has published some batches, of which the first ones are acknowledged. -/
structure HasDelivered (engine : RuleEngine σ) (memory : σ → MemoryState)
    (results : List ContinuousStepResult) (acknowledged : ℕ) (s : ContinuousSession σ) : Prop
    extends Ordered results where
  next : s.nextBatchId = results.length + 1
  pending : s.pendingBatches.map PendingBatch.id =
    (results.drop acknowledged).map ContinuousStepResult.batchId
  memory : s.consistent = true → MemoryInv (memory s.session)
  below : s.consistent = true → ∀ r ∈ results, ∀ fact ∈ r.outputs,
    fact.id < engine.nextFactId s.session

/-- A batch is published after all others. -/
theorem HasDelivered.published (huses : UsesWorkingMemory engine memory)
    (h : HasDelivered engine memory results acknowledged s) (hle : acknowledged ≤ results.length)
    {result : ContinuousStepResult} (hconsistent : s.consistent = true)
    (hpublished : Published engine config s s' result) :
    HasDelivered engine memory (results ++ [result]) acknowledged s' := by
  obtain ⟨operation, r, happly⟩ := hpublished.applied
  have hrun := (applyOperation_uses huses operation (h.memory hconsistent)).of_ok happly
  obtain ⟨hinv, hmono⟩ := hrun.inv (h.memory hconsistent)
  rw [← huses.nextFactId, ← huses.nextFactId] at hmono
  obtain ⟨hsorted, hids⟩ := collectOutputs_spec huses config (engine.nextFactId s.session) hinv
  rw [← hpublished.outputs] at hsorted hids
  refine ⟨⟨?_, ?_, ?_⟩, ?_, ?_, fun _ ↦ hinv, fun _ ↦ ?_⟩
  · rw [List.map_append, h.batchIds, List.length_append, List.length_singleton,
      List.range'_concat, List.map_singleton, hpublished.batchId, h.next]
    simp [Nat.add_comm]
  · exact List.forall_mem_append.mpr ⟨h.sorted, List.forall_mem_singleton.mpr hsorted⟩
  · refine List.pairwise_append.mpr ⟨h.before, List.pairwise_singleton _ _, fun r hr r' hr' ↦ ?_⟩
    rw [List.mem_singleton.mp hr']
    intro fact hfact fact' hfact'
    exact (h.below hconsistent r hr fact hfact).trans_le (hids fact' hfact').1
  · rw [hpublished.next, h.next, List.length_append, List.length_singleton]
  · rw [hpublished.pending, h.pending, List.drop_append_of_le_length hle, List.map_append,
      List.map_singleton, hpublished.batchId]
  · refine List.forall_mem_append.mpr ⟨fun r hr fact hfact ↦ ?_, ?_⟩
    · exact (h.below hconsistent r hr fact hfact).trans_le hmono
    · exact List.forall_mem_singleton.mpr fun fact hfact ↦ (hids fact hfact).2

/-- A failed call goes back to the session of the log. -/
theorem HasDelivered.failed (hcreate : ∀ w w', engine.createSession w = engine.createSession w')
    (h : HasDelivered engine memory results acknowledged s) (hinv : ContinuousInv engine config s)
    (hfailure : CallFailure engine config s s') :
    HasDelivered engine memory results acknowledged s' := by
  have hsession : s'.consistent = true → s.consistent = true ∧ s'.session = s.session := by
    intro hconsistent
    have hbuilt' := hfailure.inv.built hconsistent
    rw [hfailure.committed] at hbuilt'
    have hbefore := hfailure.consistent hconsistent
    exact ⟨hbefore, congrArg ReplayedState.session
      ((hinv.built hbefore).unique hcreate hbuilt')⟩
  refine ⟨h.toOrdered, hfailure.nextBatchId.trans h.next, hfailure.batches ▸ h.pending, ?_, ?_⟩
  · intro hconsistent
    obtain ⟨hbefore, heq⟩ := hsession hconsistent
    exact heq ▸ h.memory hbefore
  · intro hconsistent
    obtain ⟨hbefore, heq⟩ := hsession hconsistent
    exact heq ▸ h.below hbefore

theorem newContinuousSession_eq {world : σ} (h : newContinuousSession engine config world = .ok s) :
    ∃ session, engine.createSession world = .ok () session ∧ s = { session := session } := by
  unfold newContinuousSession at h
  cases hconfig : config.validateConfig with
  | error e =>
    rw [hconfig] at h
    cases h
  | ok u =>
    rw [hconfig] at h
    dsimp only [bind, Except.bind] at h
    split at h
    · cases h
    · split at h
      · next session hcreate =>
        cases h
        exact ⟨session, hcreate, rfl⟩
      · cases h

/-- **Every state of every run has delivered its batches in order.** -/
theorem DeliveryRun.delivered (hcreate : ∀ w w', engine.createSession w = engine.createSession w')
    (huses : UsesWorkingMemory engine memory) {world : σ}
    (h : DeliveryRun engine config world results acknowledged s) :
    acknowledged ≤ results.length ∧ HasDelivered engine memory results acknowledged s := by
  induction h with
  | @start s hnew =>
    obtain ⟨session, hsession, rfl⟩ := newContinuousSession_eq hnew
    obtain ⟨heap, hrun⟩ := huses.createSession hsession
    exact ⟨le_rfl, ⟨rfl, by simp, .nil⟩, rfl, rfl, fun _ ↦ (hrun.inv (.empty heap)).1, by simp⟩
  | @published results acknowledged s result s' call hrun hcall ih =>
    obtain ⟨hle, hdelivered⟩ := ih
    obtain ⟨hconsistent, hpublished⟩ := (call.execute_published s).of_ok hcall
    exact ⟨hle.trans (by simp), hdelivered.published huses hle hconsistent hpublished⟩
  | @acknowledged results acknowledged s s' call hrun hcall ih =>
    obtain ⟨hle, hdelivered⟩ := ih
    obtain ⟨hreplayed, hconsistent, hnext, batch, hbatch⟩ := (call.execute_published s).of_ok hcall
    have hpending := hdelivered.pending
    rw [hbatch, List.map_cons] at hpending
    have hlt : acknowledged < results.length := by
      by_contra hge
      rw [List.drop_eq_nil_of_le (not_lt.mp hge)] at hpending
      cases hpending
    rw [List.drop_eq_getElem_cons hlt, List.map_cons] at hpending
    refine ⟨hlt, hdelivered.toOrdered, hnext.trans hdelivered.next, (List.cons.inj hpending).2,
      fun hc ↦ ?_, fun hc ↦ ?_⟩
    · exact hreplayed ▸ hdelivered.memory (hconsistent ▸ hc)
    · exact hreplayed ▸ hdelivered.below (hconsistent ▸ hc)
  | @failed results acknowledged s failure s' call hrun hcall ih =>
    obtain ⟨trace, hcontinuous⟩ := hrun.continuousRun
    have hrunEq : call.run engine config s = .error failure s' := by rw [call.run_eq, hcall]; rfl
    exact ⟨ih.1, ih.2.failed hcreate hcontinuous.inv
      ((call_ends call hcontinuous.inv).of_error hrunEq)⟩

theorem acknowledge_succeeded_iff (batchId : ℕ) (s : ContinuousSession σ) :
    succeeded (acknowledge batchId s) = true ↔
      s.pendingBatches.head?.map PendingBatch.id = some batchId := by
  have hends : (acknowledge batchId).Ends s
      (fun _ _ ↦ s.pendingBatches.head?.map PendingBatch.id = some batchId)
      fun _ _ ↦ s.pendingBatches.head?.map PendingBatch.id ≠ some batchId := by
    refine .bind (.get ?_)
    cases hbatches : s.pendingBatches with
    | nil => exact .throw (by simp)
    | cons batch batches =>
      dsimp only
      split
      · next hne => exact .throw (by simpa using hne)
      · next heq => exact .modify (by simpa using heq)
  cases hresult : acknowledge batchId s with
  | ok _ s' => exact iff_of_true rfl (hends.of_ok hresult)
  | error failure s' => exact iff_of_false Bool.false_ne_true (hends.of_error hresult)

variable (engine config) in
/-- **Output delivery**: where every new rule session starts alike, the batches of the successful
steps are numbered from one on, the oldest batch that is not acknowledged is the one that can be
acknowledged, and the outputs of a batch are in the order of their ids, which are above those of
all earlier batches. -/
theorem output_delivery (hcreate : ∀ w w', engine.createSession w = engine.createSession w')
    (huses : UsesWorkingMemory engine memory) {world : σ}
    (hrun : DeliveryRun engine config world results acknowledged s) :
    results.map ContinuousStepResult.batchId = List.range' 1 results.length ∧
    (∀ batchId, succeeded (acknowledge batchId s) = true ↔
      results[acknowledged]?.map ContinuousStepResult.batchId = some batchId) ∧
    (∀ r ∈ results, r.outputs.Pairwise fun a b ↦ a.id < b.id) ∧
    results.Pairwise OutputsBefore := by
  obtain ⟨-, h⟩ := hrun.delivered hcreate huses
  refine ⟨h.batchIds, fun batchId ↦ ?_, h.sorted, h.before⟩
  have hhead : s.pendingBatches.head?.map PendingBatch.id =
      results[acknowledged]?.map ContinuousStepResult.batchId := by
    rw [← List.head?_map, h.pending, List.head?_map, List.head?_drop]
  rw [← hhead]
  exact acknowledge_succeeded_iff batchId s

/-- An address above those in working memory. -/
def freshAddress (s : Session) : FactPtr := (s.workingMemory.facts.map Prod.snd).sum + 1

theorem freshAddress_notMem (s : Session) : freshAddress s ∉ s.facts := by
  rintro ⟨id, hmem⟩
  have haddress : freshAddress s ∈ s.workingMemory.facts.map Prod.snd := List.mem_map_of_mem hmem
  have hle := List.single_le_sum (fun _ _ ↦ Nat.zero_le _) _ haddress
  exact absurd hle (Nat.not_succ_le_self _)

/-- Rule actions that report every step by a new fact. -/
def reportStep (_ : ℤ) : EStateM Failure TracedSession ℤ := fun w ↦
  .ok 1 { w with
    session := (addFact streamBase 1 (freshAddress w.session)
      (placeFact (freshAddress w.session) { type := "Report" } w.session)).1 }

/-- A session of one stream in which every step reports; each starts without facts. -/
def reportEngine : RuleEngine TracedSession :=
  { statefulEngine streamBase 1 freshAddress reportStep with
    createSession := fun _ ↦ .ok () { session := newSession streamBase 1 fun _ ↦ {} } }

theorem reportEngine_usesWorkingMemory :
    UsesWorkingMemory reportEngine fun w ↦ w.session.memory :=
  { statefulEngine_usesWorkingMemory streamBase 1 freshAddress reportStep freshAddress_notMem
      (fun hinv h ↦ by
        cases h
        exact (Session.UsesMemory.placeFact (freshAddress_notMem _) _).trans
          (.addFact 1 _ _ hinv.nextId_pos)) with
    createSession := fun h ↦ by
      cases h
      exact ⟨_, Session.UsesMemory.newSession streamBase 1 _⟩ }

/-- Reports are published, and one batch at most is pending. -/
def reportConfig : ContinuousSessionConfig :=
  { maxPendingResultBatches := 1, outputFactTypes := ["Report"] }

/-- The calls of a run in which the second step is refused, since the first batch is pending. -/
def reportCalls : List Call := [.pushBatch [streamEvent timeZero], .drain, .acknowledge 1, .drain]

/-- The session in which no call has been made. -/
def reportStart : ContinuousSession TracedSession :=
  { session := { session := newSession streamBase 1 fun _ ↦ {} } }

theorem output_delivery_reports :
    let d := reportCalls.foldl (deliver reportEngine reportConfig) ([], 0, reportStart)
    d.1.map (fun r ↦ (r.batchId, r.outputs.map Fact.id)) = [(1, [2]), (2, [3])] ∧ d.2.1 = 1 ∧
    d.1.map ContinuousStepResult.batchId = List.range' 1 d.1.length ∧
    (∀ batchId, succeeded (acknowledge batchId d.2.2) = true ↔
      d.1[d.2.1]?.map ContinuousStepResult.batchId = some batchId) ∧
    (∀ r ∈ d.1, r.outputs.Pairwise fun a b ↦ a.id < b.id) ∧
    d.1.Pairwise OutputsBefore := by
  intro d
  have hstart : DeliveryRun reportEngine reportConfig streamWorld [] 0 reportStart := .start rfl
  exact ⟨by rfl, by rfl, output_delivery reportEngine reportConfig (fun _ _ ↦ rfl)
    reportEngine_usesWorkingMemory (hstart.deliver reportCalls)⟩

end Delivery

end RulesForge
