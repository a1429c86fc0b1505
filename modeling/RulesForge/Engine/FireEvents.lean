import RulesForge.Engine.AgendaInvariant
import RulesForge.Engine.MatchEvents

/-!
# Firing as events

A right-hand side and the end of its transaction lead from one session to another by events of
matches (`Leads.executeRhs`). The cycle that fires activations adds what happens between the
agenda and the batch it has popped: `CycleStep` lists the steps of a call up to its end and
`FireStep` adds the end, which clears what the cycle has noted. Every call of `fire_all_rules`
consists of such steps (`fireAllRules_run`), each of which writes what it does to the log
(`FireStep.logs`).
-/

namespace RulesForge

/-! ### Right-hand sides -/

namespace Leads

variable {kb : KnowledgeBase} {s s' : Session} (steps : ℕ)

/-- Operations in turn, where each of them also returns something. -/
theorem foldl_fst {α β : Type} {f : Session × β → α → Session × β}
    (hf : ∀ x a, Leads kb x.1 (f x a).1) (l : List α) (x : Session × β) :
    Leads kb x.1 (l.foldl f x).1 := by
  induction l generalizing x with
  | nil => exact refl x.1
  | cons a l ih => exact (hf x a).trans (ih (f x a))

/-- A right-hand side creates a fact. -/
theorem createFact (fact : FactPtr) (type : String) (fields : List (String × ConstraintValue))
    (s : Session) : Leads kb s (createFact fact type fields s) :=
  (writeType fact type s).trans (writeFields fact fields _)

theorem trackRhsUpdateSnapshot (fact : FactPtr) (s : Session) :
    Leads kb s (trackRhsUpdateSnapshot fact s) := by
  unfold RulesForge.trackRhsUpdateSnapshot
  dsimp only
  split
  · exact refl s
  · split
    · exact refl s
    · exact of_quiet (.of_eq rfl rfl rfl rfl)

/-- A fact is inserted with a justification. -/
theorem logicalInsert (token : TokenWME) (fact : FactPtr) (s : Session) :
    Leads kb s (logicalInsert kb steps token fact s).1 := by
  have hadd : Leads kb s (if s.workingMemory.contains (s.heap fact).id = true then (s, none)
      else RulesForge.addFact kb steps fact s).1 := by
    split
    · exact refl s
    · exact addFact steps fact s
  unfold RulesForge.logicalInsert
  split
  · exact refl s
  · dsimp only
    split
    · exact hadd
    · exact hadd.trans (of_quiet (.of_eq rfl rfl rfl rfl))

theorem setFocus (group : String) (s : Session) : Leads kb s (s.setFocus group) :=
  of_event (.focuses group) trivial rfl

/-- One call of a right-hand side. -/
theorem rhsAction (token : TokenWME) (action : RhsAction) (s : FireState) :
    Leads kb s.session (action.run kb steps token s).1.session := by
  cases action with
  | insert fact type fields => exact (createFact fact type fields _).trans (addFact steps fact _)
  | insertLogical fact type fields =>
    exact (createFact fact type fields _).trans (logicalInsert steps token fact _)
  | assign fact fields => exact (trackRhsUpdateSnapshot fact _).trans (writeFields fact fields _)
  | propagate fact hint => exact propagateModify steps fact hint _
  | retract fact => exact retractFact (logicalRetract steps) fact _
  | setFocus group =>
    simp only [RhsAction.run]
    split
    · exact setFocus group s.session
    · exact refl _
  | halt => exact refl _

/-- The calls of a right-hand side, up to the first exception. -/
theorem rhsProgram (token : TokenWME) (program : RhsProgram) (s : FireState) :
    Leads kb s.session (program.run kb steps token s).1.session := by
  induction program generalizing s with
  | done => exact refl _
  | throw => exact refl _
  | act action next ih =>
    have haction : Leads kb s.session (action.run kb steps token s).1.session :=
      rhsAction steps token action s
    unfold RhsProgram.run
    split
    · next hrun =>
      rw [hrun] at haction
      exact haction
    · next hrun =>
      rw [hrun] at haction
      exact haction.trans (ih _ _)

/-- The end of a transaction: what is retracted late, -/
theorem commitRetractions (facts : List FactPtr) (s : Session) :
    Leads kb s (commitRetractions kb steps facts s) := by
  refine foldl (fun s fact ↦ ?_) facts s
  split
  · exact refl s
  · exact removeFact (logicalRetract steps) fact s

/-- what is restored, -/
theorem restoreSnapshots (t : RhsTransaction) (s : Session) :
    Leads kb s (restoreSnapshots kb steps t s).1 := by
  refine foldl_fst (fun x id ↦ ?_) _ (s, true)
  dsimp only
  split
  · split
    · exact (writeFields _ _ _).trans (propagateModify steps _ _ _)
    · exact refl _
  · exact refl _

/-- what is withdrawn, -/
theorem undoInsertions (ids : List ℤ) (s : Session) :
    Leads kb s (undoInsertions kb steps ids s).1 := by
  refine foldl_fst (fun x id ↦ ?_) _ (s, true)
  dsimp only
  split
  · exact refl _
  · exact retractFact (logicalRetract steps) _ _

/-- and what comes back. -/
theorem undoRetractions (facts : List FactPtr) (s : Session) :
    Leads kb s (undoRetractions kb steps facts s).1 := by
  refine foldl_fst (fun x fact ↦ ?_) _ (s, true)
  dsimp only
  split
  · exact refl _
  · exact addFact steps _ _

theorem clearWorkingMemory (s : Session) : Leads kb s (clearWorkingMemory s) :=
  fun _ ↦ ⟨one_pos, .single (.event .clears trivial)⟩

theorem endRhsTransaction (commit : Bool) (s : FireState) :
    Leads kb s.session (endRhsTransaction kb steps commit s).session := by
  unfold RulesForge.endRhsTransaction
  split
  · exact refl _
  · next t _ =>
    have hclosed : Quiet s.session { s.session with transaction := none } := .of_eq rfl rfl rfl rfl
    dsimp only
    split
    · refine (of_quiet ?_).trans (commitRetractions steps t.retractedFacts _)
      exact .of_eq rfl rfl rfl rfl
    · have hundone : Leads kb s.session _ := (of_quiet hclosed).trans ((restoreSnapshots steps t _).trans
        ((undoInsertions steps t.insertedFacts _).trans
          (undoRetractions steps t.retractedFacts _)))
      split
      · exact hundone.trans (of_quiet (.of_eq rfl rfl rfl rfl))
      · refine hundone.trans ((of_quiet ?_).trans (clearWorkingMemory _))
        exact .of_eq rfl rfl rfl rfl

/-- **A right-hand side leads to its end by events**, with its transaction. -/
theorem executeRhs (token : TokenWME) (program : RhsProgram) (s : FireState) :
    Leads kb s.session (executeRhs kb steps token program s).1.session := by
  have hbegin : Quiet s.session (beginRhsTransaction s.session) := .of_eq rfl rfl rfl rfl
  exact (of_quiet hbegin).trans ((rhsProgram steps token program
    { s with session := beginRhsTransaction s.session }).trans (endRhsTransaction steps _ _))

end Leads

/-! ### Steps -/

/-- The same activations, in the same places. -/
structure Agenda.SameActivations (agenda agenda' : Agenda) : Prop where
  map : agenda'.agendaMap = agenda.agendaMap
  delayed : agenda'.delayedActivations = agenda.delayedActivations
  groups : agenda'.activationGroupMap = agenda.activationGroupMap

/-- A step of a session: a propagation; at the start a rule without conditions matches; the clock is
read; and within a call of `fire_all_rules` what happens before its end. An activation is executed
if it passes the check, and skipped if it does not. -/
inductive CycleStep (kb : KnowledgeBase) : Session → Session → Prop
  | propagates {s s'} : MatchStep kb s s' → CycleStep kb s s'
  | starts {s} (rule : ℕ) : CycleStep kb s (s.addActivation kb (activationOf kb rule none .root))
  | ticks {s} (now : ℤ) : CycleStep kb s (s.readClock now)
  | seeds {s} : CycleStep kb s { s with agenda := s.agenda.seedLockOnActiveForFocus }
  | flushes {s} (now : ℤ) : CycleStep kb s (flushDelayed now s)
  | pops {s} (maxItems : ℕ) : s.batch = [] → CycleStep kb s (popBatch maxItems s)
  | requeues {s} : CycleStep kb s (requeueBatch s.batch s)
  | skips {s item batch} : s.batch = item :: batch →
      activationValid kb s item.activation = false →
      CycleStep kb s (skipActivation item.activation s)
  | fires {s item batch} : s.batch = item :: batch →
      activationValid kb s item.activation = true →
      CycleStep kb s (enterFiring kb item.activation s)
  | throws {s} : CycleStep kb s (abandonBatch s)

/-- A step of a session, which may be the end of a call. -/
inductive FireStep (kb : KnowledgeBase) : Session → Session → Prop
  | cycle {s s'} : CycleStep kb s s' → FireStep kb s s'
  | clears {s} : FireStep kb s (clearCycle s)

/-- Several steps. -/
abbrev FireRun (kb : KnowledgeBase) : Session → Session → Prop :=
  Relation.ReflTransGen (FireStep kb)

variable {kb : KnowledgeBase} {s s' : Session}

theorem CycleStep.fireRun
    (h : Relation.ReflTransGen (CycleStep kb) s s') : FireRun kb s s' :=
  Relation.ReflTransGen.mono (fun _ _ ↦ FireStep.cycle) _ _ h

/-! ### The log -/

/-- A recorded state as a session. -/
def SessionData.toSession (m : SessionData) : Session := { m with }

/-- The events of a session, without the states they found. -/
def Session.events (s : Session) : List AgendaEvent :=
  s.log.map Prod.snd

/-- A state recorded within a step is that before the step, but for memories and the focus. -/
structure Moment (s : Session) (m : SessionData) : Prop where
  base : m.toSession.base = s.base
  agenda : s.agenda.SameActivations m.agenda
  noLoop : m.agenda.noLoopBlocked = s.agenda.noLoopBlocked

namespace Moment

variable {s : Session} {m : SessionData}

theorem refl (s : Session) : Moment s s.toSessionData :=
  ⟨rfl, ⟨rfl, rfl, rfl⟩, rfl⟩

theorem heap (h : Moment s m) : m.heap = s.heap :=
  (base_parts h.base).1

theorem batch (h : Moment s m) : m.batch = s.batch := by
  have hbatch : m.toSession.base.batch = s.base.batch := by rw [h.base]
  exact hbatch

end Moment

/-- A step adds some entries to the log. -/
structure Logs (s s' : Session) (entries : List (SessionData × AgendaEvent)) : Prop where
  log : s'.log = s.log ++ entries
  moments : ∀ entry ∈ entries, Moment s entry.1

namespace Logs

variable {s s' : Session} {entries : List (SessionData × AgendaEvent)}

theorem none (h : s'.log = s.log) : Logs s s' [] :=
  ⟨by rw [h, List.append_nil], fun _ hentry ↦ absurd hentry List.not_mem_nil⟩

/-- An event that finds the session as it is. -/
theorem note (event : AgendaEvent) (h : s'.log = s.log ++ [(s.toSessionData, event)]) :
    Logs s s' [(s.toSessionData, event)] :=
  ⟨h, fun _ hentry ↦ List.mem_singleton.mp hentry ▸ .refl s⟩

/-- The two logs tell what was added. -/
theorem unique {entries' : List (SessionData × AgendaEvent)} (h : Logs s s' entries)
    (h' : Logs s s' entries') : entries = entries' :=
  List.append_cancel_left (h.log.symm.trans h'.log)

theorem events (h : Logs s s' entries) : s'.events = s.events ++ entries.map Prod.snd := by
  unfold Session.events
  rw [h.log, List.map_append]

end Logs

theorem applyAutoFocus_moment (rule : ℕ)
    (hbase : s'.base = s.base) (hagenda : s'.agenda = s.agenda) :
    Moment s (applyAutoFocus kb rule s').toSessionData := by
  have hfocused : (applyAutoFocus kb rule s').base = s.base := (applyAutoFocus_base _).trans hbase
  have hsame : s.agenda.SameActivations (applyAutoFocus kb rule s').agenda ∧
      (applyAutoFocus kb rule s').agenda.noLoopBlocked = s.agenda.noLoopBlocked := by
    rw [← hagenda]
    unfold applyAutoFocus
    dsimp only
    split <;> exact ⟨⟨rfl, rfl, rfl⟩, rfl⟩
  exact ⟨hfocused, hsame.1, hsame.2⟩

/-- What an event of matches writes down, it finds in the session. -/
theorem MatchEvent.logs (kb : KnowledgeBase) (e : MatchEvent) (s : Session) :
    Logs s (e.apply kb s) (e.entries kb s) := by
  refine ⟨e.apply_log kb s, ?_⟩
  cases e with
  | begins n rule bindings w =>
    simp only [MatchEvent.entries]
    split
    · exact fun _ hentry ↦ absurd hentry List.not_mem_nil
    · intro entry hentry
      cases List.mem_singleton.mp hentry
      exact ⟨rfl, ⟨rfl, rfl, rfl⟩, rfl⟩
  | batch n rule bindings wmes =>
    obtain ⟨hbase, hagenda, -⟩ := batchMatches_silent kb n rule bindings wmes s
    intro entry hentry
    obtain ⟨a, -, rfl⟩ := List.mem_map.mp hentry
    exact applyAutoFocus_moment rule hbase hagenda
  | ends n rule bindings w =>
    intro entry hentry
    cases List.mem_singleton.mp hentry
    exact ⟨rfl, ⟨rfl, rfl, rfl⟩, rfl⟩
  | enters fact | leaves fact =>
    intro entry hentry
    cases List.mem_singleton.mp hentry
    exact .refl s
  | focuses group | clears => exact fun _ hentry ↦ absurd hentry List.not_mem_nil

theorem Session.addActivation_logs (kb : KnowledgeBase) (s : Session) (a : Activation) :
    Logs s (s.addActivation kb a)
      (if s.isBlocked kb a then [] else [(s.toSessionData, .added a false)]) := by
  unfold Session.addActivation
  split
  · exact .none rfl
  · exact .note _ rfl

theorem CycleStep.logs (h : CycleStep kb s s') :
    ∃ entries, Logs s s' entries := by
  cases h with
  | propagates hstep =>
    cases hstep with
    | quiet hquiet => exact ⟨_, .none hquiet.log⟩
    | event e _ => exact ⟨_, e.logs kb s⟩
  | starts rule => exact ⟨_, s.addActivation_logs kb _⟩
  | ticks | flushes | pops | skips | fires | throws => exact ⟨_, .note _ rfl⟩
  | seeds | requeues => exact ⟨_, .none rfl⟩

/-- **Every step only adds to the log.** -/
theorem FireStep.logs (h : FireStep kb s s') :
    ∃ entries, Logs s s' entries := by
  cases h with
  | cycle hstep => exact hstep.logs
  | clears => exact ⟨_, .none rfl⟩

theorem FireStep.log (h : FireStep kb s s') :
    s.log <+: s'.log := by
  obtain ⟨entries, hlogs⟩ := h.logs
  exact hlogs.log ▸ List.prefix_append _ _

/-- An activation is executed. -/
def AgendaEvent.isFired : AgendaEvent → Bool
  | .fired _ => true
  | _ => false

/-- Matches execute nothing. -/
theorem MatchEvent.unfired (e : MatchEvent) (s : Session) :
    ∀ entry ∈ e.entries kb s, entry.2.isFired = false := by
  cases e with
  | begins n rule bindings w =>
    simp only [MatchEvent.entries]
    split <;> simp [AgendaEvent.isFired]
  | batch n rule bindings wmes =>
    intro entry hentry
    obtain ⟨a, -, rfl⟩ := List.mem_map.mp hentry
    rfl
  | ends | enters | leaves | focuses | clears => simp [MatchEvent.entries, AgendaEvent.isFired]

/-- **What is executed** is at the head of the batch, and has passed the check. -/
theorem CycleStep.unfired_or_fires
    {entries : List (SessionData × AgendaEvent)} (h : CycleStep kb s s') (hlogs : Logs s s' entries) :
    (∀ entry ∈ entries, entry.2.isFired = false) ∨ ∃ item batch, s.batch = item :: batch ∧
      activationValid kb s item.activation = true ∧ s' = enterFiring kb item.activation s ∧
      entries = [(s.toSessionData, .fired item.activation)] := by
  cases h with
  | propagates hstep =>
    cases hstep with
    | quiet hquiet =>
      rw [hlogs.unique (.none hquiet.log)]
      exact .inl fun _ hentry ↦ absurd hentry List.not_mem_nil
    | event e _ =>
      rw [hlogs.unique (e.logs kb s)]
      exact .inl (e.unfired s)
  | starts rule =>
    rw [hlogs.unique (s.addActivation_logs kb _)]
    left
    split <;> simp [AgendaEvent.isFired]
  | @fires item batch hbatch hvalid =>
    exact .inr ⟨item, batch, hbatch, hvalid, rfl, hlogs.unique (.note _ rfl)⟩
  | ticks | flushes | pops | skips | throws =>
    rw [hlogs.unique (.note _ rfl)]
    exact .inl fun _ hentry ↦ List.mem_singleton.mp hentry ▸ rfl
  | seeds | requeues =>
    rw [hlogs.unique (.none rfl)]
    exact .inl fun _ hentry ↦ absurd hentry List.not_mem_nil

/-- The rule of runs, for these steps. -/
theorem FireRun.invariant {G : List (SessionData × AgendaEvent) → Prop}
    (hbegins : ∀ {log more}, G (log ++ more) → G log) {P : Session → Prop}
    (hstep : ∀ {s s'}, FireStep kb s s' → G s'.log → P s → P s')
    (h : FireRun kb s s') (hguard : G s'.log) (hs : P s) : P s' :=
  run_invariant FireStep.log hbegins hstep h hguard hs

/-- What the steps preserve, without a requirement. -/
theorem FireRun.preserves {P : Session → Prop}
    (hstep : ∀ {s s'}, FireStep kb s s' → P s → P s') (h : FireRun kb s s')
    (hs : P s) : P s' :=
  h.invariant (G := fun _ ↦ True) (fun _ ↦ True.intro) (fun hs _ ↦ hstep hs) True.intro hs

/-- A run adds to the log. -/
theorem FireRun.log (h : FireRun kb s s') :
    s.log <+: s'.log :=
  h.preserves (P := fun s' ↦ s.log <+: s'.log) (fun hstep hs ↦ hs.trans hstep.log)
    (List.prefix_refl _)

/-! ### The cycle -/

/-- A propagation leaves the batch. -/
theorem MatchStep.batch (h : MatchStep kb s s') :
    s'.batch = s.batch := by
  have hbase : ∀ {s s' : Session}, s'.base = s.base → s'.batch = s.batch := by
    intro s s' hbase
    have hbatch : s'.base.batch = s.base.batch := by rw [hbase]
    exact hbatch
  cases h with
  | quiet hquiet => exact hquiet.batch
  | event e _ =>
    cases e with
    | begins n rule bindings w =>
      refine hbase ?_
      simp only [MatchEvent.apply, applyAutoFocus_base, addActivation_base]
      rfl
    | batch n rule bindings wmes =>
      obtain ⟨hnew, -, -⟩ := batchMatches_silent kb n rule bindings wmes s
      show (terminalLeftBatch kb n rule bindings wmes s).batch = s.batch
      rw [terminalLeftBatch_eq]
      split
      · exact hbase hnew
      · exact hbase ((applyAutoFocus_base _).trans hnew)
    | ends | enters | leaves | focuses | clears => rfl

theorem Leads.batch (h : Leads kb s s')
    (hpos : 0 < s.workingMemory.nextId) : s'.batch = s.batch := by
  obtain ⟨-, hrun⟩ := h hpos
  clear h hpos
  induction hrun with
  | refl => rfl
  | tail _ hlast ih => exact hlast.batch.trans ih

/-- One session leads to another by steps of a call before its end; ids are given out from one on. -/
def CycleLeads (kb : KnowledgeBase) (s s' : Session) : Prop :=
  0 < s.workingMemory.nextId →
    0 < s'.workingMemory.nextId ∧ Relation.ReflTransGen (CycleStep kb) s s'

namespace CycleLeads

variable {kb : KnowledgeBase} {s s' s'' : Session}

theorem refl (s : Session) : CycleLeads kb s s :=
  fun hpos ↦ ⟨hpos, .refl⟩

theorem trans (h : CycleLeads kb s s') (h' : CycleLeads kb s' s'') : CycleLeads kb s s'' := by
  intro hpos
  obtain ⟨hpos', hrun⟩ := h hpos
  obtain ⟨hpos'', hrun'⟩ := h' hpos'
  exact ⟨hpos'', hrun.trans hrun'⟩

theorem of_step (h : CycleStep kb s s')
    (hnextId : s'.workingMemory.nextId = s.workingMemory.nextId) : CycleLeads kb s s' :=
  fun hpos ↦ ⟨hnextId ▸ hpos, .single h⟩

/-- Propagations are steps of the cycle. -/
theorem of_leads (h : Leads kb s s') : CycleLeads kb s s' := by
  intro hpos
  obtain ⟨hpos', hrun⟩ := h hpos
  exact ⟨hpos', Relation.ReflTransGen.mono (fun _ _ ↦ CycleStep.propagates) _ _ hrun⟩

variable (kb) (steps : ℕ) (env : FireEnv)

/-- A firing that the listener before it does not stop. -/
theorem fireActivation (a : Activation) (s : FireState)
    (hstarted : env.beforeRuleFired a s.session = false) :
    Leads kb (enterFiring kb a s.session) (fireActivation kb steps env a s).1.session := by
  simp only [RulesForge.fireActivation, hstarted]
  cases env.rhs a (enterFiring kb a s.session) with
  | none => exact .refl _
  | some program =>
    exact .executeRhs steps a.token program { s with session := enterFiring kb a s.session }

/-- **The loop over a batch** is a run of steps, and leaves nothing of the batch. -/
theorem fireBatch (maxRules : ℤ) (batch : List PoppedActivationItem) (fired : ℕ) (s : FireState)
    (hbatch : s.session.batch = batch) (hpos : 0 < s.session.workingMemory.nextId) :
    let r := fireBatch kb steps env maxRules batch fired s
    CycleLeads kb s.session r.state.session ∧ r.state.session.batch = [] := by
  refine fireBatch_rule
    (I := fun batch _ c ↦ CycleLeads kb s.session c.session ∧ c.session.batch = batch)
    (Q := fun r ↦ CycleLeads kb s.session r.state.session ∧ r.state.session.batch = [])
    id ?_ ?_ ?_ ⟨refl _, hbatch⟩
  · rintro item batch fired c ⟨hleads, hbatch⟩
    have hrequeue : CycleLeads kb c.session (requeueBatch c.session.batch c.session) :=
      of_step .requeues rfl
    rw [hbatch] at hrequeue
    exact ⟨hleads.trans hrequeue, rfl⟩
  · rintro item batch fired c ⟨hleads, hbatch⟩ hvalid
    have hskip : CycleLeads kb c.session (skipActivation item.activation c.session) :=
      of_step (.skips hbatch hvalid) rfl
    refine ⟨hleads.trans hskip, ?_⟩
    show c.session.batch.tail = batch
    rw [hbatch, List.tail_cons]
  · rintro item batch fired c ⟨hleads, hbatch⟩ - hvalid
    have hthrow : ∀ s : Session, CycleLeads kb s (abandonBatch s) := fun s ↦ of_step .throws rfl
    cases hbefore : env.beforeRuleFired item.activation c.session with
    | true =>
      have hrun : RulesForge.fireActivation kb steps env item.activation c = (c, true) :=
        if_pos hbefore
      rw [hrun]
      exact ⟨fun _ ↦ ⟨hleads.trans (hthrow c.session), rfl⟩, Bool.noConfusion⟩
    | false =>
      have hfire : CycleLeads kb c.session (enterFiring kb item.activation c.session) :=
        of_step (.fires hbatch hvalid) rfl
      have hruns := fireActivation kb steps env item.activation c hbefore
      have hfires := hleads.trans (hfire.trans (of_leads hruns))
      refine ⟨fun _ ↦ ⟨hfires.trans (hthrow _), rfl⟩, fun _ ↦ ⟨hfires, ?_⟩⟩
      rw [hruns.batch (hleads hpos).1]
      show c.session.batch.tail = batch
      rw [hbatch, List.tail_cons]

/-- **The rounds of a call** are a run of steps, with the end of the call after it unless it ends by
an exception. -/
theorem fireRounds (maxRules : ℤ) (rounds fired : ℕ) (s : FireState)
    (hbatch : s.session.batch = []) (hpos : 0 < s.session.workingMemory.nextId) {r : FireResult}
    (h : fireRounds kb steps env maxRules rounds fired s = some r) :
    r.state.session.batch = [] ∧ ∃ s', CycleLeads kb s.session s' ∧
      (r.state.session = s' ∨ r.state.session = clearCycle s') := by
  refine fireRounds_rule
    (I := fun _ c ↦ c.session.batch = [] ∧ CycleLeads kb s.session c.session)
    (Q := fun r ↦ r.state.session.batch = [] ∧ ∃ s', CycleLeads kb s.session s' ∧
      (r.state.session = s' ∨ r.state.session = clearCycle s'))
    ?_ ?_ ?_ ⟨hbatch, refl _⟩ h
  · exact fun ⟨hempty, hleads⟩ ↦ ⟨hempty, hleads.trans (of_step (.flushes _) rfl)⟩
  · exact fun ⟨hempty, hleads⟩ ↦ ⟨hempty, _, hleads, .inr rfl⟩
  · rintro fired c ⟨hempty, hleads⟩
    have hpop := hleads.trans (of_step (.pops (batchBudget maxRules fired) hempty) rfl)
    obtain ⟨hloop, hdone⟩ := fireBatch kb steps env maxRules _ fired
      { c with session := popBatch (batchBudget maxRules fired) c.session } rfl (hpop hpos).1
    exact ⟨fun hnone ↦ ⟨hnone, _, hpop, .inr rfl⟩,
      fun _ ↦ ⟨hdone, _, hpop.trans hloop, .inl rfl⟩, fun _ ↦ ⟨hdone, hpop.trans hloop⟩⟩

end CycleLeads

/-- **Every call of `fire_all_rules`** is a run of steps of the cycle, after which at most the end of
the call comes; nothing is left of a batch. -/
theorem fireAllRules_run (kb : KnowledgeBase) (steps : ℕ) (env : FireEnv) (maxRules : ℤ)
    (rounds : ℕ) (s : Session) (hbatch : s.batch = []) (hpos : 0 < s.workingMemory.nextId)
    {r : FireResult} (h : fireAllRules kb steps env maxRules rounds s = some r) :
    r.state.session.batch = [] ∧ ∃ s', CycleLeads kb s s' ∧
      (r.state.session = s' ∨ r.state.session = clearCycle s') := by
  unfold fireAllRules at h
  split at h
  · cases h
    exact ⟨hbatch, s, .refl s, .inl rfl⟩
  · have hseed : CycleLeads kb s { s with agenda := s.agenda.seedLockOnActiveForFocus } :=
      .of_step .seeds rfl
    obtain ⟨hempty, s', hrounds, hend⟩ :=
      CycleLeads.fireRounds kb steps env maxRules rounds 0 _ (by exact hbatch) (by exact hpos) h
    exact ⟨hempty, s', hseed.trans hrounds, hend⟩

/-! ### The limit -/

theorem fireBatch_fired_le (kb : KnowledgeBase) (steps : ℕ) (env : FireEnv) {maxRules : ℤ}
    (batch : List PoppedActivationItem) (fired : ℕ) (s : FireState) (hmax : 0 ≤ maxRules)
    (hfired : fired ≤ maxRules) :
    (fireBatch kb steps env maxRules batch fired s).fired ≤ maxRules := by
  refine fireBatch_rule (I := fun _ fired _ ↦ (fired : ℤ) ≤ maxRules)
    (Q := fun r ↦ (r.fired : ℤ) ≤ maxRules) id id (fun h _ ↦ h) ?_ hfired
  intro item batch fired s _ hlimit _
  have hroom : ((fired + 1 : ℕ) : ℤ) ≤ maxRules := by
    simp only [limitReached, decide_eq_false_iff_not] at hlimit
    omega
  exact ⟨fun _ ↦ hroom, fun _ ↦ hroom⟩

theorem fireRounds_fired_le (kb : KnowledgeBase) (steps : ℕ) (env : FireEnv) {maxRules : ℤ}
    (hmax : 0 ≤ maxRules) (rounds fired : ℕ) (s : FireState) (hfired : fired ≤ maxRules)
    {r : FireResult} (h : fireRounds kb steps env maxRules rounds fired s = some r) :
    r.fired ≤ maxRules := by
  refine fireRounds_rule (I := fun fired _ ↦ (fired : ℤ) ≤ maxRules)
    (Q := fun r ↦ (r.fired : ℤ) ≤ maxRules) id id ?_ hfired h
  intro fired s hfired
  have hbatch := fun batch p ↦ fireBatch_fired_le kb steps env batch fired p hmax hfired
  exact ⟨fun _ ↦ hfired, fun _ ↦ hbatch _ _, fun _ ↦ hbatch _ _⟩

theorem fireAllRules_fired_le (kb : KnowledgeBase) (steps : ℕ) (env : FireEnv) {maxRules : ℤ}
    (hmax : 0 ≤ maxRules) (rounds : ℕ) (s : Session) {r : FireResult}
    (h : fireAllRules kb steps env maxRules rounds s = some r) : r.fired ≤ maxRules := by
  unfold fireAllRules at h
  split at h
  · cases h
    exact hmax
  · exact fireRounds_fired_le kb steps env hmax rounds 0 _ hmax h

end RulesForge
