import RulesForge.Engine.ActivationGroups
import RulesForge.Engine.ContinuousDelivery
import RulesForge.Engine.CycleRest

/-!
# The status of a step

A step of a continuous session that leaves work behind asks for a drain, and the caller drains
until a result is committed. The status is computed from all activations on the agenda, so a step
that has not used up its budget asks for a drain too when an activation is out of the group with
the focus, or when a rule has halted the cycle; in the first case no drain ever fires it
(`idleAgenda_drains`). Where no round of a step leaves an activation behind, and only there, the
status is what it ought to be (`saysSo_iff`).
-/

namespace RulesForge

open EStateM

/-! ### Steps of a rule session -/

section Steps

variable {σ : Type} {engine : RuleEngine σ} {config : ContinuousSessionConfig}

/-- How the result of a step comes about: the operation is prepared and the rules are fired. -/
structure StepFired (engine : RuleEngine σ) (config : ContinuousSessionConfig)
    (operation : Operation) (s : ContinuousSession σ) (result : ContinuousStepResult)
    (prepared : ReplayedState σ) (session : σ) : Prop where
  prepare : ∃ expired,
    prepareOperation engine config operation s.toReplayedState = .ok expired prepared
  fired : engine.fireAllRulesFailFast config.maxRulesPerStep prepared.session =
    .ok result.rulesFired session
  status : result.status = stepStatus engine session

theorem publishResult_status (rulesFired : ℤ) (expired : ℕ) (firstNewFactId : ℤ)
    (s : ContinuousSession σ) :
    (publishResult engine config rulesFired expired firstNewFactId).Ends s
      (fun result _ ↦ result.rulesFired = rulesFired ∧
        result.status = stepStatus engine s.session) fun _ _ ↦ True := by
  unfold publishResult
  refine .bind (.get ?_)
  dsimp only
  split
  · exact (rejectResourceLimit_ends _ s).mono (fun _ _ h ↦ h) fun _ _ _ ↦ trivial
  · exact .bind (.modify (.pure ⟨rfl, rfl⟩))

theorem applyOperation_fired (operation : Operation) (s : ReplayedState σ) :
    (applyOperation engine config operation).Ends s
      (fun r s' ↦ ∃ prepared, prepareOperation engine config operation s = .ok r.2 prepared ∧
        engine.fireAllRulesFailFast config.maxRulesPerStep prepared.session =
          .ok r.1 s'.session) fun _ _ ↦ True := by
  rw [applyOperation_eq]
  refine .bind (Ends.self.mono (fun expired prepared hprepare ↦ ?_) fun _ _ _ ↦ trivial)
  refine .bind ((onSession_ends _ prepared).mono ?_ fun _ _ _ ↦ trivial)
  rintro rulesFired _ ⟨session, hfire, rfl⟩
  exact .pure ⟨prepared, hprepare, hfire⟩

theorem executeOperation_fired (operation : Operation) (s : ContinuousSession σ) :
    (executeOperation engine config operation true true).Ends s
      (fun result _ ↦ ∃ prepared session, StepFired engine config operation s result prepared
        session) fun _ _ ↦ True := by
  refine executeOperation_of_try ?_
  unfold tryOperation
  refine .bind (.get (.bind ((onReplayed_ends _ s).mono ?_ fun _ _ _ ↦ trivial)))
  rintro ⟨rulesFired, expired⟩ _ ⟨state, happly, rfl⟩
  obtain ⟨prepared, hprepare, hfire⟩ :=
    (applyOperation_fired operation s.toReplayedState).of_ok happly
  refine .bind (.modify (.tryCatch ((publishResult_status _ _ _ _).mono ?_ ?_)))
  · rintro result s' ⟨hfired, hstatus⟩
    exact ⟨prepared, state.session, ⟨expired, hprepare⟩, hfired ▸ hfire, hstatus⟩
  · exact fun _ _ _ ↦ .bind (.modify (.throw trivial))

/-- **A step that succeeds** has prepared its operation and fired the rules. -/
theorem Call.execute_fired {call : Call} {s s' : ContinuousSession σ}
    {result : ContinuousStepResult} (h : call.execute engine config s = .ok (some result) s') :
    s.isConsistent engine = true ∧ ∃ operation ∈ call.operation, ∃ prepared session,
      StepFired engine config operation s result prepared session :=
  (call.execute_ends (Q := fun result _ ↦ s.isConsistent engine = true ∧
    ∃ operation ∈ call.operation, ∃ prepared session,
      StepFired engine config operation s result prepared session) s
    fun operation hoperation hconsistent ↦ (executeOperation_fired operation s).mono
      (fun _ _ hfired ↦ ⟨hconsistent, operation, hoperation, hfired⟩) fun _ _ h ↦ h).of_ok h

/-! ### Runs of steps -/

/-- A step that has succeeded, with the session it has found. -/
structure StepRecord (σ : Type) where
  call : Call
  session : ContinuousSession σ
  result : ContinuousStepResult

/-- The runs from a new session: the steps that have succeeded, in order, and the session that is
left. -/
inductive StatusRun (engine : RuleEngine σ) (config : ContinuousSessionConfig) (world : σ) :
    List (StepRecord σ) → ContinuousSession σ → Prop
  | start {s} : newContinuousSession engine config world = .ok s →
      StatusRun engine config world [] s
  | step {steps s result s'} (call : Call) : StatusRun engine config world steps s →
      call.execute engine config s = .ok (some result) s' →
      StatusRun engine config world (steps ++ [⟨call, s, result⟩]) s'
  | acknowledged {steps s s'} (call : Call) : StatusRun engine config world steps s →
      call.execute engine config s = .ok none s' → StatusRun engine config world steps s'
  | failed {steps s failure s'} (call : Call) : StatusRun engine config world steps s →
      call.execute engine config s = .error failure s' → StatusRun engine config world steps s'

/-- A step that has fired fewer rules than it may is committed. -/
def StepRecord.SaysSo (config : ContinuousSessionConfig) (step : StepRecord σ) : Prop :=
  step.result.rulesFired < config.maxRulesPerStep → step.result.status = .committed

/-- Up to the first result that is committed, every result has fired a rule. -/
def FiresUntilCommitted : List ContinuousStepResult → Prop
  | [] => True
  | result :: results =>
    result.status = .committed ∨ 1 ≤ result.rulesFired ∧ FiresUntilCommitted results

/-- Every step says when it leaves nothing to do, and drains that are called for fire until one
of them is committed. -/
structure SaysSo (config : ContinuousSessionConfig) (steps : List (StepRecord σ)) : Prop where
  committed : ∀ step ∈ steps, step.SaysSo config
  drains : ∀ before step drains after, steps = before ++ step :: drains ++ after →
    step.result.status = .drainRequired → (∀ d ∈ drains, d.call = .drain) →
    FiresUntilCommitted (drains.map StepRecord.result)

variable {world : σ} {steps : List (StepRecord σ)} {s : ContinuousSession σ}

theorem StatusRun.continuousRun (h : StatusRun engine config world steps s) :
    (∃ trace, ContinuousRun engine config world trace s) ∧
      ∀ step ∈ steps, (∃ trace, ContinuousRun engine config world trace step.session) ∧
        ∃ s', step.call.execute engine config step.session = .ok (some step.result) s' := by
  have hcall : ∀ {s s' : ContinuousSession σ} (call : Call),
      (discard (call.execute engine config s)).state = s' →
      (∃ trace, ContinuousRun engine config world trace s) →
      ∃ trace, ContinuousRun engine config world trace s' := by
    rintro s _ call rfl ⟨trace, hrun⟩
    rw [← call.run_eq]
    exact ⟨_, hrun.call call⟩
  induction h with
  | start hnew => exact ⟨⟨[], .start hnew⟩, fun step hstep ↦ absurd hstep List.not_mem_nil⟩
  | step call _ h ih =>
    obtain ⟨hrun, hsteps⟩ := ih
    refine ⟨hcall call (by rw [h]; rfl) hrun, fun step hstep ↦ ?_⟩
    rcases List.mem_append.mp hstep with hstep | hstep
    · exact hsteps step hstep
    · cases List.mem_singleton.mp hstep
      exact ⟨hrun, _, h⟩
  | acknowledged call _ h ih => exact ⟨hcall call (by rw [h]; rfl) ih.1, ih.2⟩
  | failed call _ h ih => exact ⟨hcall call (by rw [h]; rfl) ih.1, ih.2⟩

/-- A session that was started has a budget. -/
theorem StatusRun.maxRulesPerStep_pos (h : StatusRun engine config world steps s) :
    0 < config.maxRulesPerStep := by
  induction h with
  | start hnew =>
    obtain ⟨-, -, hvalid⟩ := newContinuousSession_inv hnew
    unfold ContinuousSessionConfig.validateConfig at hvalid
    split at hvalid
    · cases hvalid
    · next hlimits =>
      simp only [not_or] at hlimits
      omega
  | step _ _ _ ih => exact ih
  | acknowledged _ _ _ ih => exact ih
  | failed _ _ _ ih => exact ih

/-- Steps that say so need no more: a drain that is not committed has used up its budget. -/
theorem SaysSo.of_committed (hpos : 0 < config.maxRulesPerStep)
    (h : ∀ step ∈ steps, step.SaysSo config) : SaysSo config steps := by
  refine ⟨h, ?_⟩
  rintro before step drains after rfl - -
  have hdrains : ∀ d ∈ drains, d.SaysSo config := fun d hd ↦ h d (by simp [hd])
  clear h
  induction drains with
  | nil => trivial
  | cons d drains ih =>
    obtain ⟨hd, hdrains⟩ := List.forall_mem_cons.mp hdrains
    by_cases hbudget : d.result.rulesFired < config.maxRulesPerStep
    · exact .inl (hd hbudget)
    · exact .inr ⟨by omega, ih hdrains⟩

end Steps

/-! ### Consistency -/

/-- No operation on facts marks a session inconsistent. -/
def SameConsistency (s s' : Session) : Prop := s'.isConsistent = s.isConsistent

namespace SameConsistency

variable {kb : KnowledgeBase}

theorem carries {logicalRetract : TokenWME → Session → Session}
    (hretract : ∀ w s, SameConsistency s (logicalRetract w s)) :
    Carries kb logicalRetract SameConsistency where
  refl _ := rfl
  trans h h' := Eq.trans h' h
  silent {s s'} h := by
    show s'.base.isConsistent = s.base.isConsistent
    rw [h.base]
  terminal {n rule bindings} w type s _ := by
    cases type with
    | assert =>
      simp only [terminalLeft]
      split
      · rfl
      · unfold applyAutoFocus Session.addActivation
        dsimp only
        split <;> split <;> rfl
    | retract =>
      simp only [terminalLeft, terminalRetract]
      split
      · exact hretract w _
      · exact hretract w s
    | modify => rfl

theorem foldl {α : Type} {f : Session → α → Session} (hf : ∀ s x, SameConsistency s (f s x))
    (l : List α) (s : Session) : SameConsistency s (l.foldl f s) := by
  induction l generalizing s with
  | nil => rfl
  | cons x l ih => exact Eq.trans (ih (f s x)) (hf s x)

theorem retractFact {logicalRetract : TokenWME → Session → Session}
    (hretract : ∀ w s, SameConsistency s (logicalRetract w s)) (fact : FactPtr) (s : Session) :
    SameConsistency s (retractFact kb logicalRetract fact s).1 := by
  unfold RulesForge.retractFact
  split
  · rfl
  · split
    · rfl
    · split
      · rfl
      · rfl
      · next p _ _ =>
        unfold removeFact cleanWmeCache activateEntryPoint
        dsimp only
        refine Eq.trans (foldl (fun s w ↦ hretract w s) _ _) ?_
        split
        · rfl
        · exact (carries hretract).rightActivate (fun _ _ _ ↦ rfl) _ _ p .retract _

theorem logicalRetract (steps : ℕ) (w : TokenWME) (s : Session) :
    SameConsistency s (logicalRetract kb steps w s) := by
  induction steps generalizing w s with
  | zero => rfl
  | succ steps ih => exact foldl (fun s fact ↦ retractFact ih fact s) _ _

theorem insertEventInto (steps : ℕ) (streamName : String) (fact : FactPtr) (s : Session) :
    SameConsistency s (insertEventInto kb steps streamName fact s).1 := by
  unfold RulesForge.insertEventInto insertThrough
  split
  · rfl
  · split
    · rfl
    · split
      · rfl
      · dsimp only
        split
        · rfl
        · split
          · rfl
          · exact (carries (logicalRetract steps)).rightActivate (fun _ _ _ ↦ rfl) _ _ fact _ _

theorem retractFrom (steps : ℕ) (streamName : String) (fact : FactPtr) (s : Session) :
    SameConsistency s (retractFrom kb steps streamName fact s).1 := by
  unfold RulesForge.retractFrom
  split
  · rfl
  · split
    · rfl
    · split
      · rfl
      · next p _ =>
        split
        · rfl
        · exact (carries (logicalRetract steps)).rightActivate (fun _ _ _ ↦ rfl) _ _ p _ _

end SameConsistency

/-! ### The rule session of a network -/

section Rules

variable (kb : KnowledgeBase) (steps : ℕ) (allocate : Session → FactPtr)
  (env : Session → FireEnv) (rounds : Session → ℕ) (config : ContinuousSessionConfig)

/-- `fire_all_rules_fail_fast`. What the rules do, the clock and the number of rounds that suffice
may depend on the session; a call that comes to no end counts as one that fails. -/
def fireCycle (maxRules : ℤ) : EStateM Failure TracedSession ℤ := fun w ↦
  match fireAllRules kb steps (env w.session) maxRules (rounds w.session) w.session with
  | none => .error (.runtimeError "the call comes to no end") w
  | some r =>
    let w' := { w with session := r.state.session }
    if r.outcome = .threw then .error (.runtimeError "an exception of a rule or a listener") w'
    else .ok r.fired w'

/-- `StatefulSession` with the cycle that fires its rules. -/
def firingEngine : RuleEngine TracedSession :=
  statefulEngine kb steps allocate (fireCycle kb steps env rounds)

/-- No round of a step leaves an activation behind: of the cycle that is started on the session in
which the operation has been prepared. -/
def LeavesNoneBehind (step : StepRecord TracedSession) : Prop :=
  ∀ operation ∈ step.call.operation, ∀ expired prepared,
    prepareOperation (firingEngine kb steps allocate env rounds) config operation
      step.session.toReplayedState = .ok expired prepared →
    let s := prepared.session.session
    ∀ round ∈ callRounds kb steps (env s) config.maxRulesPerStep (rounds s) s,
      round.LeavesNone kb steps (env s) config.maxRulesPerStep

variable {kb steps allocate env rounds config}

theorem advanceEventTime_session {v : Millis} {w w' : TracedSession} {expired : ℕ}
    (h : TracedSession.advanceEventTime v w = .ok expired w') : w'.session = w.session := by
  unfold TracedSession.advanceEventTime at h
  split at h
  · cases h
  · split at h
    · cases h
    · cases h
      rfl

/-- What is kept of every operation and of the cycle. -/
theorem maintains_serviceable :
    Maintains (firingEngine kb steps allocate env rounds) fun w ↦ Serviceable w.session where
  insertEventInto {streamName fact time w p w'} hw h := by
    have hleads : Serviceable (w.insertEvent kb steps streamName (allocate w.session) fact).session :=
      (Leads.insertEventInto steps streamName (allocate w.session)
        (placeFact (allocate w.session) fact w.session)).serviceable ⟨hw.nextId_pos, hw.covering⟩
    unfold firingEngine statefulEngine at h
    dsimp only at h
    split at h
    · cases h
      exact hleads
    · cases h
  advanceEventTime {v w expired w'} hw h := by
    rw [advanceEventTime_session h]
    exact hw
  retractFrom {streamName p w u w'} hw h := by
    have hleads : Serviceable (RulesForge.retractFrom kb steps streamName p w.session).1 :=
      (Leads.retractFrom steps streamName p w.session).serviceable hw
    unfold firingEngine statefulEngine at h
    dsimp only at h
    split at h
    · cases h
      exact hleads
    · cases h
  fireAllRulesFailFast {maxRules w fired w'} hw h := by
    unfold firingEngine statefulEngine fireCycle at h
    dsimp only at h
    split at h
    · cases h
    · next r hr =>
      split at h
      · cases h
      · cases h
        exact (fireAllRules_rest_iff _ hw hr).1

theorem prepares_isConsistent :
    Prepares (firingEngine kb steps allocate env rounds) fun w ↦ w.session.isConsistent = true where
  insertEventInto {streamName fact time w p w'} hw h := by
    have hsame := @SameConsistency.insertEventInto kb steps streamName (allocate w.session)
      (placeFact (allocate w.session) fact w.session)
    unfold firingEngine statefulEngine at h
    dsimp only at h
    split at h
    · cases h
      exact Eq.trans hsame hw
    · cases h
  advanceEventTime {v w expired w'} hw h := by
    rw [advanceEventTime_session h]
    exact hw
  retractFrom {streamName p w u w'} hw h := by
    have hsame := @SameConsistency.retractFrom kb steps streamName p w.session
    unfold firingEngine statefulEngine at h
    dsimp only at h
    split at h
    · cases h
      exact Eq.trans hsame hw
    · cases h

/-- A call of the cycle that succeeds. -/
theorem fireCycle_ok {maxRules fired : ℤ} {w w' : TracedSession}
    (h : fireCycle kb steps env rounds maxRules w = .ok fired w') :
    ∃ r, fireAllRules kb steps (env w.session) maxRules (rounds w.session) w.session = some r ∧
      r.outcome ≠ .threw ∧ fired = r.fired ∧ w'.session = r.state.session := by
  unfold fireCycle at h
  dsimp only at h
  split at h
  · cases h
  · next r hr =>
    split at h
    · cases h
    · next hok =>
      cases h
      exact ⟨r, hr, hok, rfl, rfl⟩

/-- **A step says so exactly when it leaves no activation behind.** -/
theorem step_saysSo_iff {world : TracedSession} {step : StepRecord TracedSession}
    {s' : ContinuousSession TracedSession} (hpos : 0 < config.maxRulesPerStep)
    (hrun : ∃ trace, ContinuousRun (firingEngine kb steps allocate env rounds) config world trace
      step.session)
    (hstep : step.call.execute (firingEngine kb steps allocate env rounds) config step.session =
      .ok (some step.result) s') :
    step.SaysSo config ↔ LeavesNoneBehind kb steps allocate env rounds config step := by
  obtain ⟨trace, hrun⟩ := hrun
  obtain ⟨hconsistent, operation, hoperation, prepared, session, ⟨expired, hprepare⟩, hfired,
    hstatus⟩ := Call.execute_fired hstep
  have hmaintains := @maintains_serviceable kb steps allocate env rounds
  have hfound : Serviceable step.session.session.session :=
    hmaintains.continuousRun (fun h ↦ by cases h; exact newSession_serviceable kb steps _) hrun
      (consistent_of_isConsistent hconsistent)
  have hprepared : Serviceable prepared.session.session :=
    (hmaintains.toPrepares.prepareOperation operation hfound).of_ok hprepare
  have hready : prepared.session.session.isConsistent = true :=
    ((@prepares_isConsistent kb steps allocate env rounds).prepareOperation operation
      (Bool.and_eq_true_iff.mp hconsistent).2).of_ok hprepare
  obtain ⟨r, hr, hok, hcount, hleft⟩ := fireCycle_ok hfired
  have hrest := (fireAllRules_rest_iff _ hprepared hr).2 hready hok
  have hbudget : limitReached config.maxRulesPerStep r.fired = false ↔
      step.result.rulesFired < config.maxRulesPerStep := by
    unfold limitReached
    rw [decide_eq_false_iff_not, hcount]
    omega
  have hcommitted : step.result.status = .committed ↔ r.state.session.agenda.agendaMap = [] := by
    rw [hstatus]
    show (if session.session.agenda.agendaMap.length = 0 then ContinuousStepStatus.committed
      else .drainRequired) = .committed ↔ _
    rw [hleft]
    split
    · next hempty => simpa using hempty
    · next hempty => simpa using hempty
  unfold StepRecord.SaysSo
  rw [← hbudget, hcommitted, hrest]
  constructor
  · intro hrounds operation' hoperation' expired' prepared' hprepare'
    obtain rfl := Option.some.inj (hoperation.symm.trans hoperation')
    obtain ⟨-, rfl⟩ := Result.ok.inj (hprepare.symm.trans hprepare')
    exact hrounds
  · exact fun hnone ↦ hnone operation hoperation expired prepared hprepare

/-- **Where the status is what it ought to be**: in a run, every step that has fired fewer rules
than it may is committed, and every drain fires until one is committed, exactly when no step leaves
an activation behind. -/
theorem saysSo_iff (kb : KnowledgeBase) (steps : ℕ) (allocate : Session → FactPtr)
    (env : Session → FireEnv) (rounds : Session → ℕ) {config : ContinuousSessionConfig}
    {world : TracedSession} {run : List (StepRecord TracedSession)}
    {s : ContinuousSession TracedSession}
    (h : StatusRun (firingEngine kb steps allocate env rounds) config world run s) :
    SaysSo config run ↔
      ∀ step ∈ run, LeavesNoneBehind kb steps allocate env rounds config step := by
  have hpos := h.maxRulesPerStep_pos
  have hiff : ∀ step ∈ run,
      (step.SaysSo config ↔ LeavesNoneBehind kb steps allocate env rounds config step) := by
    intro step hmem
    obtain ⟨hrun, s', hstep⟩ := h.continuousRun.2 step hmem
    exact step_saysSo_iff hpos hrun hstep
  refine ⟨fun hsaid step hmem ↦ (hiff step hmem).mp (hsaid.committed step hmem), fun hnone ↦ ?_⟩
  exact .of_committed hpos fun step hmem ↦ (hiff step hmem).mpr (hnone step hmem)

end Rules

/-! ### One rule without conditions -/

/-- A network whose rules do nothing. -/
def restEngine (kb : KnowledgeBase) : RuleEngine TracedSession :=
  firingEngine kb 1 (fun _ ↦ 1) (fun _ ↦ idleEnv) fun _ ↦ 2

def restWorld : TracedSession := { session := { heap := emptyHeap } }

/-- The session in which no step has been made. -/
def restStart (kb : KnowledgeBase) : ContinuousSession TracedSession :=
  { session := { session := newSession kb 1 emptyHeap } }

theorem restStart_run (kb : KnowledgeBase) :
    StatusRun (restEngine kb) {} restWorld [] (restStart kb) :=
  .start rfl

/-- Three rules without conditions. -/
def plainBase : KnowledgeBase :=
  rulesBase [{ name := "first" }, { name := "second" }, { name := "third" }]

/-- Two of the rules are fired by the first drain, the last one by the second, which is committed. -/
theorem saysSo_iff_plain :
    ∃ run s, StatusRun (restEngine plainBase) { maxRulesPerStep := 2 } restWorld run s ∧
      run.map (fun step ↦ (step.result.rulesFired, step.result.status)) =
        [(2, .drainRequired), (1, .committed)] ∧
      ∀ step ∈ run, LeavesNoneBehind plainBase 1 (fun _ ↦ 1) (fun _ ↦ idleEnv) (fun _ ↦ 2)
        { maxRulesPerStep := 2 } step := by
  have hstart : StatusRun (restEngine plainBase) { maxRulesPerStep := 2 } restWorld []
      (restStart plainBase) := .start rfl
  have hrun := (hstart.step .drain rfl).step .drain rfl
  refine ⟨_, _, hrun, rfl, (saysSo_iff plainBase 1 _ _ _ hrun).mp (.of_committed (by decide) ?_)⟩
  intro step hstep
  rcases List.mem_pair.mp hstep with rfl | rfl
  · exact fun hfired ↦ absurd hfired (by decide)
  · exact fun _ ↦ rfl

/-- A rule of an agenda group that nothing gives the focus. -/
def groupedBase : KnowledgeBase := oneRuleBase { name := "grouped", agendaGroup := some "later" }

/-- **A drain fires nothing and asks for another one**: the activation of the rule is on the agenda,
out of the group with the focus. -/
theorem idleAgenda_drains :
    ∃ run s, StatusRun (restEngine groupedBase) {} restWorld run s ∧
      run.map (fun step ↦ (step.result.rulesFired, step.result.status)) =
        [(0, .drainRequired), (0, .drainRequired)] ∧ ¬ SaysSo {} run := by
  have hrun := ((restStart_run groupedBase).step .drain rfl).step .drain rfl
  refine ⟨_, _, hrun, rfl, fun hsaid ↦ ?_⟩
  have hcommitted := hsaid.committed _ List.mem_cons_self (by decide)
  cases hcommitted

end RulesForge
