import RulesForge.Engine.EngineRuns

/-!
# Where the cycle comes to rest

A call of `fire_all_rules` that stops before its limit may leave activations behind: those that
are not in the agenda group with the focus, since only the group with the focus is served, and all
of them when a right-hand side halts the cycle. Nothing else is left (`fireRounds_rest_iff`): an
activation of the group with the focus is found, because every hash of the agenda's map has an
entry in its queue (`Agenda.Covering`), in every state of every run.
-/

namespace RulesForge

/-! ### The queue covers the map -/

/-- Every hash of a map of activations has an entry in a queue. -/
def CoveredBy (map : List (ℕ × Activation)) (queue : List (ℤ × ℕ)) : Prop :=
  ∀ entry ∈ map, ∃ salience, (salience, entry.1) ∈ queue

theorem mem_foldl_queuePush {entries queue : List (ℤ × ℕ)} {e : ℤ × ℕ} :
    e ∈ entries.foldl (fun queue entry ↦ queuePush entry queue) queue ↔
      e ∈ entries ∨ e ∈ queue := by
  induction entries generalizing queue with
  | nil => simp
  | cons entry entries ih =>
    rw [List.foldl_cons, ih, mem_queuePush, List.mem_cons, or_assoc, or_left_comm]

/-- A stale entry covers nothing. -/
theorem CoveredBy.skip {map : List (ℕ × Activation)} {queue deferred : List (ℤ × ℕ)}
    {salience : ℤ} {hash : ℕ} (h : CoveredBy map ((salience, hash) :: queue ++ deferred))
    (hstale : ∀ a, (hash, a) ∉ map) : CoveredBy map (queue ++ deferred) := by
  intro entry hentry
  obtain ⟨salience', hmem⟩ := h entry hentry
  refine ⟨salience', (List.mem_cons.mp hmem).resolve_left fun heq ↦ ?_⟩
  cases heq
  exact hstale entry.2 hentry

/-- An entry that is set aside is still there. -/
theorem CoveredBy.defer {map : List (ℕ × Activation)} {queue deferred : List (ℤ × ℕ)}
    {e : ℤ × ℕ} (h : CoveredBy map (e :: queue ++ deferred)) :
    CoveredBy map (queue ++ (deferred ++ [e])) := by
  intro entry hentry
  obtain ⟨salience, hmem⟩ := h entry hentry
  refine ⟨salience, ?_⟩
  simp only [List.cons_append, List.mem_cons, List.mem_append, List.not_mem_nil, or_false]
    at hmem ⊢
  tauto

namespace Agenda

variable {agenda agenda' : Agenda}

def Covering (agenda : Agenda) : Prop := CoveredBy agenda.agendaMap agenda.agendaQueue

namespace Covering

/-- Fewer activations under the same queue. -/
theorem shrink (h : agenda.Covering) (hmap : agenda'.agendaMap ⊆ agenda.agendaMap)
    (hqueue : agenda'.agendaQueue = agenda.agendaQueue) : agenda'.Covering := by
  intro entry hentry
  rw [hqueue]
  exact h entry (hmap hentry)

theorem same (h : agenda.Covering) (hsame : agenda.SameEntries agenda') : agenda'.Covering :=
  h.shrink (fun _ hmem ↦ hsame.map ▸ hmem) hsame.queue

/-- An activation that enters brings its own entry. -/
theorem enter (h : agenda.Covering) (a : Activation) (salience : ℤ) :
    (joinGroup { agenda with
      agendaMap := AssocMap.insert a.hashValue a agenda.agendaMap
      agendaQueue := queuePush (salience, a.hashValue) agenda.agendaQueue } a).Covering := by
  have hentered : Covering { agenda with
      agendaMap := AssocMap.insert a.hashValue a agenda.agendaMap
      agendaQueue := queuePush (salience, a.hashValue) agenda.agendaQueue } := by
    rintro ⟨hash, b⟩ hb
    rcases AssocMap.mem_insert.mp hb with ⟨-, hb⟩ | ⟨rfl, -⟩
    · obtain ⟨salience', hmem⟩ := h _ hb
      exact ⟨salience', mem_queuePush.mpr (.inr hmem)⟩
    · exact ⟨salience, mem_queuePush.mpr (.inl rfl)⟩
  exact hentered.same (sameEntries_joinGroup _ a)

theorem add (h : agenda.Covering) (a : Activation) : (agenda.add a).Covering :=
  h.enter a _

theorem addBatch (h : agenda.Covering) (activations : List Activation) :
    (agenda.addBatch activations).Covering := by
  induction activations generalizing agenda with
  | nil => exact h
  | cons a activations ih => exact ih (h.add a)

theorem addWithDuration (h : agenda.Covering) (now : ℤ) (a : Activation) :
    (agenda.addWithDuration now a).Covering := by
  unfold Agenda.addWithDuration
  split
  · exact h
  · exact h.add a

theorem flushReadyDelayed (h : agenda.Covering) (now : ℤ) :
    (agenda.flushReadyDelayed now).Covering := by
  have hwaiting : Agenda.Covering { agenda with
      delayedActivations := agenda.delayedActivations.filter fun d ↦ ¬ d.1 ≤ now } := h
  exact hwaiting.addBatch _

theorem remove (h : agenda.Covering) (hash : ℕ) : (agenda.remove hash).Covering := by
  unfold Agenda.remove
  split
  · exact h
  · next a _ =>
    exact h.shrink List.filter_sublist.subset (agenda.sameEntries_leaveGroup a.rule hash).queue

theorem foldl_remove (h : agenda.Covering) {α : Type} (f : α → ℕ) (l : List α) :
    (l.foldl (fun agenda x ↦ agenda.remove (f x)) agenda).Covering := by
  induction l generalizing agenda with
  | nil => exact h
  | cons x l ih => exact ih (h.remove (f x))

theorem cancelActivationGroup (h : agenda.Covering) (group : String) (exceptHash : ℕ) :
    (agenda.cancelActivationGroup group exceptHash).Covering := by
  unfold Agenda.cancelActivationGroup
  split
  · exact h
  · exact (h.foldl_remove id _).same (sameEntries_eraseFromGroup _ group exceptHash)

theorem requeueBatchActivations (h : agenda.Covering) (batch : List PoppedActivationItem) :
    (agenda.requeueBatchActivations batch 0).Covering := by
  unfold Agenda.requeueBatchActivations
  rw [List.drop_zero]
  induction batch generalizing agenda with
  | nil => exact h
  | cons item batch ih => exact ih (h.enter item.activation item.salience)

/-- What was set aside is put back, or the queue is built anew from the map. -/
theorem of_coveredBy {queue deferred : List (ℤ × ℕ)}
    (h : CoveredBy agenda.agendaMap (queue ++ deferred)) (staleSkipped : ℕ) :
    ((pushBack { agenda with agendaQueue := queue } deferred).compactIfNeeded
      staleSkipped).Covering := by
  unfold compactIfNeeded
  split
  · intro entry hentry
    obtain ⟨salience, hmem⟩ := h entry hentry
    exact ⟨salience, mem_foldl_queuePush.mpr (List.mem_append.mp hmem).symm⟩
  · intro entry hentry
    have hfold : agenda.agendaMap.foldl (fun queue entry ↦
        queuePush (entry.2.rule.salience, entry.1) queue) [] =
        (agenda.agendaMap.map fun entry ↦ (entry.2.rule.salience, entry.1)).foldl
          (fun queue entry ↦ queuePush entry queue) [] := by
      rw [List.foldl_map]
    show ∃ salience, (salience, entry.1) ∈ agenda.agendaMap.foldl _ []
    rw [hfold]
    exact ⟨_, mem_foldl_queuePush.mpr (.inl (List.mem_map_of_mem hentry))⟩

theorem popNextBatchFrom (queue : List (ℤ × ℕ)) (room : ℕ) (deferred : List (ℤ × ℕ))
    (staleSkipped : ℕ) (h : CoveredBy agenda.agendaMap (queue ++ deferred)) :
    (popNextBatchFrom queue room agenda deferred staleSkipped).2.Covering := by
  induction queue generalizing agenda room deferred staleSkipped with
  | nil => cases room <;> exact of_coveredBy h staleSkipped
  | cons entry queue ih =>
    obtain ⟨salience, hash⟩ := entry
    cases room with
    | zero => exact of_coveredBy h staleSkipped
    | succ room =>
      unfold Agenda.popNextBatchFrom
      split
      · next hstale => exact ih _ _ _ (h.skip (AssocMap.lookup_eq_none_iff.mp hstale))
      · next candidate _ =>
        split
        · -- the hash that is taken needs no entry any more
          have htaken : CoveredBy (AssocMap.erase hash agenda.agendaMap)
              ((salience, hash) :: queue ++ deferred) :=
            fun entry hentry ↦ h entry (AssocMap.mem_erase.mp hentry).2
          have hskipped : CoveredBy (AssocMap.erase hash agenda.agendaMap) (queue ++ deferred) :=
            htaken.skip fun a ha ↦ (AssocMap.mem_erase.mp ha).1 rfl
          exact @ih { agenda.leaveGroup candidate.rule hash with
            agendaMap := AssocMap.erase hash agenda.agendaMap } room deferred staleSkipped hskipped
        · exact ih _ _ _ h.defer

theorem popNextBatchActivations (h : agenda.Covering) (maxItems : ℕ) :
    (agenda.popNextBatchActivations maxItems).2.Covering := by
  unfold Agenda.popNextBatchActivations
  split
  · exact h
  · refine popNextBatchFrom _ _ _ _ ?_
    rw [List.append_nil]
    exact h

end Covering

/-! ### Nothing is popped -/

theorem popNextBatchFrom_eq_nil {queue : List (ℤ × ℕ)} {room : ℕ} (hroom : 0 < room)
    {deferred : List (ℤ × ℕ)} {staleSkipped : ℕ}
    (h : (popNextBatchFrom queue room agenda deferred staleSkipped).1 = []) :
    (∀ e ∈ queue, ∀ a, agenda.agendaMap.lookup e.2 = some a → agenda.inFocus a = false) ∧
      (popNextBatchFrom queue room agenda deferred staleSkipped).2.agendaMap =
        agenda.agendaMap := by
  obtain ⟨room, rfl⟩ : ∃ n, room = n + 1 := ⟨room - 1, by omega⟩
  induction queue generalizing deferred staleSkipped with
  | nil =>
    refine ⟨fun e he ↦ absurd he List.not_mem_nil, ?_⟩
    unfold popNextBatchFrom compactIfNeeded
    split <;> rfl
  | cons entry queue ih =>
    obtain ⟨salience, hash⟩ := entry
    unfold popNextBatchFrom at h ⊢
    cases hlookup : agenda.agendaMap.lookup hash with
    | none =>
      simp only [hlookup] at h ⊢
      obtain ⟨hrest, hmap⟩ := ih h
      refine ⟨List.forall_mem_cons.mpr ⟨fun a ha ↦ ?_, hrest⟩, hmap⟩
      exact absurd (hlookup.symm.trans ha) (Option.some_ne_none a).symm
    | some candidate =>
      simp only [hlookup] at h ⊢
      by_cases hfocus : agenda.inFocus candidate = true
      · rw [if_pos hfocus] at h
        cases h
      · rw [if_neg hfocus] at h ⊢
        obtain ⟨hrest, hmap⟩ := ih h
        refine ⟨List.forall_mem_cons.mpr ⟨fun a ha ↦ ?_, hrest⟩, hmap⟩
        obtain rfl := Option.some.inj (hlookup.symm.trans ha)
        exact Bool.not_eq_true _ ▸ hfocus

/-- **A group that has the focus is served**: when nothing is popped, the agenda is empty exactly
when it holds no activation of another group. -/
theorem agendaMap_eq_nil_iff (hcovering : agenda.Covering) {maxItems : ℕ} (hroom : 0 < maxItems)
    (h : (agenda.popNextBatchActivations maxItems).1 = []) :
    (agenda.popNextBatchActivations maxItems).2.agendaMap = [] ↔
      ∀ entry ∈ agenda.agendaMap, agenda.inFocus entry.2 = true := by
  unfold popNextBatchActivations at h ⊢
  rw [if_neg (by omega)] at h ⊢
  obtain ⟨hout, hmap⟩ := popNextBatchFrom_eq_nil hroom h
  rw [hmap]
  cases hagenda : agenda.agendaMap with
  | nil => simp
  | cons entry rest =>
    -- the first entry of the map is the one that its hash denotes
    have hlookup : agenda.agendaMap.lookup entry.1 = some entry.2 := by
      rw [hagenda]
      exact List.lookup_cons_self
    have hmem : entry ∈ agenda.agendaMap := by
      rw [hagenda]
      exact List.mem_cons_self
    obtain ⟨salience, hqueue⟩ := hcovering entry hmem
    have hfalse := hout _ hqueue _ hlookup
    simp [hfalse]

end Agenda

/-! ### Sessions -/

/-- The queue of a session's agenda covers its map, and ids are given out from one on. -/
structure Serviceable (s : Session) : Prop where
  nextId_pos : 0 < s.workingMemory.nextId
  covering : s.agenda.Covering

theorem covering_addActivation {kb : KnowledgeBase} {s : Session} (h : s.agenda.Covering)
    (a : Activation) : (s.addActivation kb a).agenda.Covering := by
  unfold Session.addActivation
  split
  · exact h
  · exact h.addWithDuration _ a

theorem covering_event {kb : KnowledgeBase} {s : Session} (h : s.agenda.Covering)
    (e : MatchEvent) : (e.apply kb s).agenda.Covering := by
  cases e with
  | begins n rule bindings w =>
    have hadd : ((updateTerminal n (· ++ [w]) s).addActivation kb
        (activationOf kb rule (some bindings) w)).agenda.Covering :=
      covering_addActivation (s := updateTerminal n (· ++ [w]) s) h _
    simp only [MatchEvent.apply, applyAutoFocus]
    split
    · exact hadd
    · exact hadd
  | batch n rule bindings wmes =>
    obtain ⟨-, hagenda, -⟩ := batchMatches_silent kb n rule bindings wmes s
    show (terminalLeftBatch kb n rule bindings wmes s).agenda.Covering
    rw [terminalLeftBatch_eq]
    rw [← hagenda] at h
    split
    · exact h
    · have hfocused : (applyAutoFocus kb rule
          (batchMatches kb n rule bindings wmes s).1).agenda.Covering := by
        simp only [applyAutoFocus]
        split <;> exact h
      exact hfocused.addBatch _
  | ends n rule bindings w => exact h.remove _
  | enters fact => exact h
  | leaves fact => exact h.foldl_remove Prod.fst _
  | focuses group => exact h
  | clears => exact h

/-- Events of matches keep a session serviceable. -/
theorem Leads.serviceable {kb : KnowledgeBase} {s s' : Session} (h : Leads kb s s')
    (hs : Serviceable s) : Serviceable s' := by
  obtain ⟨hpos, hrun⟩ := h hs.nextId_pos
  refine ⟨hpos, ?_⟩
  obtain ⟨-, hcovering⟩ := hs
  clear h hpos
  induction hrun with
  | refl => exact hcovering
  | tail _ hlast ih =>
    cases hlast with
    | quiet hquiet =>
      rw [hquiet.agenda]
      exact ih
    | event e _ => exact covering_event ih e

theorem newSession_serviceable (kb : KnowledgeBase) (steps : ℕ) (heap : Heap) :
    Serviceable (newSession kb steps heap) := by
  refine (newSession_leads kb steps heap).serviceable ⟨?_, ?_⟩
  · rw [(base_parts (startSession_parts kb heap).1).2.1]
    exact one_pos
  · exact startSession_induction (P := fun s ↦ s.agenda.Covering)
      (fun _ hmem ↦ absurd hmem List.not_mem_nil) fun _ a _ hs ↦ covering_addActivation hs a

/-! ### Rounds -/

/-- A round of the cycle that is about to pop: the session it finds, and the number of rules fired
before. -/
structure CycleRound where
  fired : ℕ
  state : FireState

section Rounds

variable (kb : KnowledgeBase) (steps : ℕ) (env : FireEnv) (maxRules : ℤ)

/-- The session of a round after it has popped. -/
def CycleRound.popped (maxRules : ℤ) (round : CycleRound) : FireState :=
  { round.state with session := popBatch (batchBudget maxRules round.fired) round.state.session }

/-- What the batch of a round comes to. -/
def CycleRound.fire (round : CycleRound) : FireResult :=
  let s := round.popped maxRules
  fireBatch kb steps env maxRules s.session.batch round.fired s

/-- The rounds of a call that pop, in order. -/
def cycleRounds : ℕ → ℕ → FireState → List CycleRound
  | 0, _, _ => []
  | rounds + 1, fired, s =>
    let s := { s with session := flushDelayed (env.clock rounds) s.session }
    if s.haltRequested || limitReached maxRules fired then []
    else
      let round : CycleRound := ⟨fired, s⟩
      let r := round.fire kb steps env maxRules
      round ::
        if (round.popped maxRules).session.batch.isEmpty || r.outcome = .threw ||
          r.state.haltRequested || limitReached maxRules r.fired then []
        else cycleRounds rounds r.fired r.state

/-- The rounds of a call of `fire_all_rules`. -/
def callRounds (rounds : ℕ) (s : Session) : List CycleRound :=
  if !s.isConsistent then []
  else
    cycleRounds kb steps env maxRules rounds 0
      { session := { s with agenda := s.agenda.seedLockOnActiveForFocus } }

/-- A round leaves no activation behind. If it finds none to pop, all those on the agenda belong to
the group with the focus; if its batch halts the cycle below the limit, the agenda is empty. -/
def CycleRound.LeavesNone (round : CycleRound) : Prop :=
  let agenda := round.state.session.agenda
  if (round.popped maxRules).session.batch.isEmpty then
    ∀ entry ∈ agenda.agendaMap, agenda.inFocus entry.2 = true
  else
    let r := round.fire kb steps env maxRules
    r.state.haltRequested = true → limitReached maxRules r.fired = false →
      r.state.session.agenda.agendaMap = []

end Rounds

section Cycle

variable {kb : KnowledgeBase} {steps : ℕ} {env : FireEnv} {maxRules : ℤ}

/-- A change of the agenda alone, as far as service goes. -/
theorem Serviceable.of_agenda {s s' : Session} (h : Serviceable s)
    (hnextId : s'.workingMemory.nextId = s.workingMemory.nextId) (hcovering : s'.agenda.Covering) :
    Serviceable s' :=
  ⟨hnextId ▸ h.nextId_pos, hcovering⟩

theorem Serviceable.enterFiring {s : Session} (h : Serviceable s) (a : Activation) :
    Serviceable (enterFiring kb a s) := by
  refine h.of_agenda rfl ?_
  have hblocked : (if a.rule.noLoop then s.agenda.blockNoloop (s.noloopKey kb a.ruleId a.token)
      else s.agenda).Covering := by
    split <;> exact h.covering
  unfold RulesForge.enterFiring
  dsimp only
  cases a.rule.activationGroup with
  | none => exact hblocked
  | some group => exact hblocked.cancelActivationGroup group a.hashValue

theorem Serviceable.fireActivation {s : FireState} (h : Serviceable s.session) (a : Activation) :
    Serviceable (fireActivation kb steps env a s).1.session := by
  unfold RulesForge.fireActivation
  split
  · exact h
  · dsimp only
    have hentered : Serviceable (RulesForge.enterFiring kb a s.session) := h.enterFiring a
    split
    · exact hentered
    · next program _ =>
      exact (Leads.executeRhs steps a.token program
        { s with session := RulesForge.enterFiring kb a s.session }).serviceable hentered

theorem Serviceable.fireBatch (batch : List PoppedActivationItem) (fired : ℕ) {s : FireState}
    (h : Serviceable s.session) :
    Serviceable (fireBatch kb steps env maxRules batch fired s).state.session := by
  refine fireBatch_rule (I := fun _ _ s ↦ Serviceable s.session)
    (Q := fun r ↦ Serviceable r.state.session) id ?_ ?_ ?_ h
  · exact fun h ↦ h.of_agenda rfl (h.covering.requeueBatchActivations _)
  · exact fun h _ ↦ h.of_agenda rfl h.covering
  · intro item batch fired s h _ _
    have hfired : Serviceable
        (RulesForge.fireActivation kb steps env item.activation s).1.session :=
      h.fireActivation item.activation
    exact ⟨fun _ ↦ hfired.of_agenda rfl hfired.covering, fun _ ↦ hfired⟩

theorem Serviceable.clearCycle {s : Session} (h : Serviceable s) : Serviceable (clearCycle s) :=
  h.of_agenda rfl h.covering

theorem Serviceable.flushDelayed {s : Session} (h : Serviceable s) (now : ℤ) :
    Serviceable (flushDelayed now s) :=
  h.of_agenda rfl (h.covering.flushReadyDelayed now)

theorem Serviceable.popBatch {s : Session} (h : Serviceable s) (maxItems : ℕ) :
    Serviceable (popBatch maxItems s) :=
  h.of_agenda rfl (h.covering.popNextBatchActivations maxItems)

/-- The budget of a round below the limit is not zero. -/
theorem batchBudget_pos {fired : ℕ} (h : limitReached maxRules fired = false) :
    0 < batchBudget maxRules fired := by
  unfold limitReached at h
  unfold batchBudget agendaBatchSize
  rw [decide_eq_false_iff_not, not_and, not_le] at h
  split
  · next hmax =>
    have hroom : (0 : ℤ) < maxRules - fired := by
      have := h hmax
      omega
    omega
  · omega

theorem CycleRound.leavesNone_of_isEmpty {round : CycleRound}
    (hs : Serviceable round.state.session) (hlimit : limitReached maxRules round.fired = false)
    (hempty : (round.popped maxRules).session.batch.isEmpty = true) :
    round.LeavesNone kb steps env maxRules ↔
      (round.popped maxRules).session.agenda.agendaMap = [] := by
  have hnone : (round.state.session.agenda.popNextBatchActivations
      (batchBudget maxRules round.fired)).1 = [] := List.isEmpty_iff.mp hempty
  have hserved := Agenda.agendaMap_eq_nil_iff hs.covering (batchBudget_pos hlimit) hnone
  unfold LeavesNone
  dsimp only
  rw [if_pos hempty]
  exact hserved.symm

theorem CycleRound.leavesNone_of_popped {round : CycleRound}
    (hbatch : (round.popped maxRules).session.batch.isEmpty = false) :
    round.LeavesNone kb steps env maxRules ↔
      ((round.fire kb steps env maxRules).state.haltRequested = true →
        limitReached maxRules (round.fire kb steps env maxRules).fired = false →
          (round.fire kb steps env maxRules).state.session.agenda.agendaMap = []) := by
  unfold LeavesNone
  dsimp only
  rw [hbatch, if_neg Bool.false_ne_true]

/-- **What a call leaves behind below its limit**: the agenda is empty exactly when no round leaves
an activation behind. -/
theorem fireRounds_rest_iff (rounds fired : ℕ) {s : FireState} (hs : Serviceable s.session)
    (hhalt : s.haltRequested = false) {r : FireResult}
    (h : fireRounds kb steps env maxRules rounds fired s = some r) :
    Serviceable r.state.session ∧
      (r.outcome ≠ .threw →
        ((limitReached maxRules r.fired = false → r.state.session.agenda.agendaMap = []) ↔
          ∀ round ∈ cycleRounds kb steps env maxRules rounds fired s,
            round.LeavesNone kb steps env maxRules)) := by
  induction rounds generalizing fired s with
  | zero => cases h
  | succ rounds ih =>
    rw [fireRounds_succ] at h
    unfold cycleRounds
    set s₁ : FireState := { s with session := flushDelayed (env.clock rounds) s.session } with hs₁
    have hflushed : Serviceable s₁.session := hs.flushDelayed (env.clock rounds)
    dsimp only at h ⊢
    by_cases hstop : (s₁.haltRequested || limitReached maxRules fired) = true
    · rw [if_pos hstop] at h ⊢
      cases h
      have hlimit : limitReached maxRules fired = true := by
        simpa [hs₁, hhalt] using hstop
      refine ⟨hflushed.clearCycle, fun _ ↦ ⟨fun _ round hround ↦ ?_, fun _ hroom ↦ ?_⟩⟩
      · exact absurd hround List.not_mem_nil
      · exact absurd (hlimit.symm.trans hroom) Bool.noConfusion
    · rw [if_neg hstop] at h ⊢
      have hlimit : limitReached maxRules fired = false := by
        simp only [Bool.or_eq_true, not_or, Bool.not_eq_true] at hstop
        exact hstop.2
      have hempty_iff := @CycleRound.leavesNone_of_isEmpty kb steps env maxRules ⟨fired, s₁⟩
        hflushed hlimit
      have hbatch_iff := @CycleRound.leavesNone_of_popped kb steps env maxRules ⟨fired, s₁⟩
      have hpopped : Serviceable (CycleRound.popped maxRules ⟨fired, s₁⟩).session :=
        hflushed.popBatch _
      have hfired : Serviceable (CycleRound.fire kb steps env maxRules ⟨fired, s₁⟩).state.session :=
        hpopped.fireBatch _ fired
      -- the round of the call is this one
      change (if (CycleRound.popped maxRules ⟨fired, s₁⟩).session.batch.isEmpty = true then
        some (⟨{ CycleRound.popped maxRules ⟨fired, s₁⟩ with
          session := clearCycle (CycleRound.popped maxRules ⟨fired, s₁⟩).session }, fired, .finished⟩ :
            FireResult)
        else
          let b := CycleRound.fire kb steps env maxRules ⟨fired, s₁⟩
          if b.outcome = .threw then some b
          else if b.state.haltRequested || limitReached maxRules b.fired then
            some ⟨{ b.state with session := clearCycle b.state.session }, b.fired, .stopped⟩
          else fireRounds kb steps env maxRules rounds b.fired b.state) = some r at h
      rw [List.forall_mem_cons]
      generalize CycleRound.popped maxRules ⟨fired, s₁⟩ = popped
        at h hempty_iff hbatch_iff hpopped ⊢
      cases hempty : popped.session.batch.isEmpty with
      | true =>
        rw [hempty, if_pos rfl] at h
        cases h
        refine ⟨hpopped.clearCycle, fun _ ↦ ?_⟩
        rw [hempty_iff hempty]
        -- no round comes after this one
        show (limitReached maxRules fired = false → popped.session.agenda.agendaMap = []) ↔ _
        simp [hlimit]
      | false =>
        rw [hempty, if_neg Bool.false_ne_true] at h
        rw [hbatch_iff hempty]
        generalize CycleRound.fire kb steps env maxRules ⟨fired, s₁⟩ = b at h hfired ⊢
        dsimp only at h
        by_cases hthrew : b.outcome = .threw
        · rw [if_pos hthrew] at h
          cases h
          exact ⟨hfired, fun hne ↦ absurd hthrew hne⟩
        · rw [if_neg hthrew] at h
          simp only [hthrew, decide_false, Bool.or_false, Bool.false_or]
          by_cases hrest : (b.state.haltRequested || limitReached maxRules b.fired) = true
          · rw [if_pos hrest] at h ⊢
            cases h
            refine ⟨hfired.clearCycle, fun _ ↦ ?_⟩
            show (limitReached maxRules b.fired = false → b.state.session.agenda.agendaMap = []) ↔ _
            -- below the limit it is a halt that has stopped the cycle
            cases hroom : limitReached maxRules b.fired with
            | true => simp
            | false =>
              have hhalted : b.state.haltRequested = true := by simpa [hroom] using hrest
              simp [hhalted]
          · rw [if_neg hrest] at h ⊢
            have hhalted : b.state.haltRequested = false := by
              simp only [Bool.or_eq_true, not_or, Bool.not_eq_true] at hrest
              exact hrest.1
            obtain ⟨hserviceable, hiff⟩ := ih b.fired hfired hhalted h
            refine ⟨hserviceable, fun hok ↦ (hiff hok).trans ?_⟩
            simp [hhalted]

theorem fireAllRules_rest_iff (rounds : ℕ) {s : Session} (hs : Serviceable s) {r : FireResult}
    (h : fireAllRules kb steps env maxRules rounds s = some r) :
    Serviceable r.state.session ∧
      (s.isConsistent = true → r.outcome ≠ .threw →
        ((limitReached maxRules r.fired = false → r.state.session.agenda.agendaMap = []) ↔
          ∀ round ∈ callRounds kb steps env maxRules rounds s,
            round.LeavesNone kb steps env maxRules)) := by
  unfold fireAllRules at h
  unfold callRounds
  by_cases hinconsistent : (!s.isConsistent) = true
  · rw [if_pos hinconsistent] at h
    cases h
    refine ⟨hs, fun hconsistent ↦ ?_⟩
    simp [hconsistent] at hinconsistent
  · rw [if_neg hinconsistent] at h ⊢
    have hseeded : Serviceable { s with agenda := s.agenda.seedLockOnActiveForFocus } :=
      hs.of_agenda rfl hs.covering
    obtain ⟨hserviceable, hiff⟩ := fireRounds_rest_iff rounds 0
      (s := { session := { s with agenda := s.agenda.seedLockOnActiveForFocus } }) hseeded rfl h
    exact ⟨hserviceable, fun _ ↦ hiff⟩

end Cycle

end RulesForge
