import RulesForge.Engine.LostActivations

/-!
# What a cycle leaves behind

While rules fire, the agenda holds which no-loop rules have fired for which facts, which rules are
locked and which groups have the focus. `fire_all_rules_impl` clears the three by the code after its
loop, so that a call which does not come to that code leaves them: one that is refused, because an
execution is under way or the session is inconsistent, and one that an exception leaves.

The firings of a call are listed with the states they find (`callFirings`), and the call leaves
nothing behind exactly when it is let in and none of its firings lets an exception escape, a firing
apart that has found nothing and added nothing (`fireAllRules_clear_iff`).
-/

namespace RulesForge

/-! ### The state of a cycle -/

namespace Agenda

/-- Nothing of a cycle is left: no rule is blocked, and no group has been given the focus. -/
structure CycleClear (agenda : Agenda) : Prop where
  noLoop : agenda.noLoopBlocked = []
  lockOnActive : agenda.lockOnActiveBlocked = []
  focus : agenda.focusStack = []

namespace CycleClear

variable {agenda : Agenda}

/-- The main focus is served, whatever has fired. -/
theorem inFocus_iff (h : agenda.CycleClear) (a : Activation) :
    agenda.inFocus a = true ↔ a.rule.agendaGroup.getD "MAIN" = "MAIN" := by
  have hfocus : agenda.getFocus = "MAIN" := by
    show agenda.focusStack.head?.getD "MAIN" = "MAIN"
    rw [h.focus]
    rfl
  unfold inFocus
  rw [hfocus]
  cases a.rule.agendaGroup with
  | none => simp
  | some group => simp

/-- Every activation is accepted. -/
theorem isBlocked {s : Session} (h : s.agenda.CycleClear) (kb : KnowledgeBase) (a : Activation) :
    s.isBlocked kb a = false := by
  show ((a.rule.noLoop && s.agenda.noLoopBlocked.contains _) ||
    (a.rule.lockOnActive && s.agenda.lockOnActiveBlocked.contains _)) = false
  rw [h.noLoop, h.lockOnActive]
  simp

end CycleClear

end Agenda

theorem clearCycle_clear (s : Session) : (clearCycle s).agenda.CycleClear :=
  ⟨rfl, rfl, rfl⟩

/-- A change that does not touch the state of the cycle. -/
structure SameCycle (agenda agenda' : Agenda) : Prop where
  noLoop : agenda'.noLoopBlocked = agenda.noLoopBlocked
  lockOnActive : agenda'.lockOnActiveBlocked = agenda.lockOnActiveBlocked
  focus : agenda'.focusStack = agenda.focusStack

namespace SameCycle

variable {agenda agenda' agenda'' : Agenda}

theorem refl (agenda : Agenda) : SameCycle agenda agenda :=
  ⟨rfl, rfl, rfl⟩

theorem trans (h : SameCycle agenda agenda') (h' : SameCycle agenda' agenda'') :
    SameCycle agenda agenda'' :=
  ⟨h'.noLoop.trans h.noLoop, h'.lockOnActive.trans h.lockOnActive, h'.focus.trans h.focus⟩

theorem clear_iff (h : SameCycle agenda agenda') : agenda'.CycleClear ↔ agenda.CycleClear :=
  ⟨fun hclear ↦ ⟨h.noLoop ▸ hclear.noLoop, h.lockOnActive ▸ hclear.lockOnActive,
    h.focus ▸ hclear.focus⟩, fun hclear ↦ ⟨h.noLoop.trans hclear.noLoop,
    h.lockOnActive.trans hclear.lockOnActive, h.focus.trans hclear.focus⟩⟩

theorem addWithDuration (agenda : Agenda) (now : ℤ) (a : Activation) :
    SameCycle agenda (agenda.addWithDuration now a) := by
  unfold Agenda.addWithDuration
  split
  · exact ⟨rfl, rfl, rfl⟩
  · unfold Agenda.add Agenda.joinGroup
    split <;> exact ⟨rfl, rfl, rfl⟩

theorem eraseFromGroup (agenda : Agenda) (group : String) (hash : ℕ) :
    SameCycle agenda (agenda.eraseFromGroup group hash) := by
  unfold Agenda.eraseFromGroup
  split <;> exact ⟨rfl, rfl, rfl⟩

theorem remove (agenda : Agenda) (hash : ℕ) : SameCycle agenda (agenda.remove hash) := by
  unfold Agenda.remove Agenda.leaveGroup
  split
  · exact refl agenda
  · split
    · exact ⟨rfl, rfl, rfl⟩
    · obtain ⟨hnoLoop, hlock, hfocus⟩ := eraseFromGroup agenda _ hash
      exact ⟨hnoLoop, hlock, hfocus⟩

/-- Activations that are removed in turn. -/
theorem foldl_remove {α : Type} (f : α → ℕ) (l : List α) (agenda : Agenda) :
    SameCycle agenda (l.foldl (fun agenda x ↦ agenda.remove (f x)) agenda) :=
  List.foldlRecOn l _ (refl agenda) fun agenda' h x _ ↦ h.trans (remove agenda' (f x))

theorem cancelActivationGroup (agenda : Agenda) (group : String) (exceptHash : ℕ) :
    SameCycle agenda (agenda.cancelActivationGroup group exceptHash) := by
  unfold Agenda.cancelActivationGroup
  split
  · exact refl agenda
  · exact (foldl_remove id _ agenda).trans (eraseFromGroup _ group exceptHash)

theorem joinGroup (agenda : Agenda) (a : Activation) : SameCycle agenda (agenda.joinGroup a) := by
  unfold Agenda.joinGroup
  split <;> exact ⟨rfl, rfl, rfl⟩

theorem leaveGroup (agenda : Agenda) (rule : ParsedRule) (hash : ℕ) :
    SameCycle agenda (agenda.leaveGroup rule hash) := by
  unfold Agenda.leaveGroup
  split
  · exact refl agenda
  · exact eraseFromGroup agenda _ hash

/-- Joining a group after changes of the map and the queue. -/
theorem enter (agenda : Agenda) (a : Activation) (agendaMap : List (ℕ × Activation))
    (queue : List (ℤ × ℕ)) :
    SameCycle agenda (Agenda.joinGroup { agenda with
      agendaMap := agendaMap
      agendaQueue := queue } a) :=
  have h := joinGroup { agenda with agendaMap := agendaMap, agendaQueue := queue } a
  ⟨h.noLoop, h.lockOnActive, h.focus⟩

theorem addBatch (agenda : Agenda) (activations : List Activation) :
    SameCycle agenda (agenda.addBatch activations) :=
  List.foldlRecOn activations _ (refl agenda) fun agenda' h a _ ↦ h.trans (enter agenda' a _ _)

end SameCycle

/-- What matches and right-hand sides do to the state of a cycle: they push groups. -/
structure Pushes (agenda agenda' : Agenda) : Prop where
  noLoop : agenda'.noLoopBlocked = agenda.noLoopBlocked
  lockOnActive : agenda'.lockOnActiveBlocked = agenda.lockOnActiveBlocked
  focus : agenda.focusStack <:+ agenda'.focusStack

namespace Pushes

variable {kb : KnowledgeBase} {agenda agenda' agenda'' : Agenda}

theorem of_sameCycle (h : SameCycle agenda agenda') : Pushes agenda agenda' :=
  ⟨h.noLoop, h.lockOnActive, h.focus ▸ List.suffix_refl _⟩

theorem refl (agenda : Agenda) : Pushes agenda agenda :=
  of_sameCycle (.refl agenda)

theorem trans (h : Pushes agenda agenda') (h' : Pushes agenda' agenda'') :
    Pushes agenda agenda'' :=
  ⟨h'.noLoop.trans h.noLoop, h'.lockOnActive.trans h.lockOnActive, h.focus.trans h'.focus⟩

theorem addActivation (s : Session) (a : Activation) :
    Pushes s.agenda (s.addActivation kb a).agenda := by
  unfold Session.addActivation
  split
  · exact refl _
  · exact of_sameCycle (.addWithDuration s.agenda s.now a)

theorem applyAutoFocus (rule : ℕ) (s : Session) :
    Pushes s.agenda (applyAutoFocus kb rule s).agenda := by
  unfold RulesForge.applyAutoFocus
  dsimp only
  split
  · exact ⟨rfl, rfl, List.suffix_cons _ _⟩
  · exact refl _

theorem event (s : Session) (e : MatchEvent) : Pushes s.agenda (e.apply kb s).agenda := by
  cases e with
  | begins n rule bindings w =>
    have hadd := @addActivation kb (updateTerminal n (· ++ [w]) s)
      (activationOf kb rule (some bindings) w)
    exact hadd.trans (applyAutoFocus rule _)
  | batch n rule bindings wmes =>
    obtain ⟨-, hagenda, -⟩ := batchMatches_silent kb n rule bindings wmes s
    show Pushes s.agenda (terminalLeftBatch kb n rule bindings wmes s).agenda
    rw [terminalLeftBatch_eq, ← hagenda]
    split
    · exact refl _
    · exact (applyAutoFocus rule _).trans (of_sameCycle (.addBatch _ _))
  | ends n rule bindings w => exact of_sameCycle (.remove s.agenda _)
  | enters fact => exact refl s.agenda
  | leaves fact => exact of_sameCycle (.foldl_remove Prod.fst _ s.agenda)
  | focuses group => exact ⟨rfl, rfl, List.suffix_cons _ _⟩
  | clears => exact refl s.agenda

theorem of_leads {s s' : Session} (h : Leads kb s s') (hpos : 0 < s.workingMemory.nextId) :
    Pushes s.agenda s'.agenda := by
  obtain ⟨-, hrun⟩ := h hpos
  clear h hpos
  induction hrun with
  | refl => exact refl _
  | tail _ hlast ih =>
    cases hlast with
    | quiet hquiet =>
      rw [hquiet.agenda]
      exact ih
    | event e _ => exact ih.trans (event _ e)

/-- What is clear in the end was clear before. -/
theorem clear_iff (h : Pushes agenda agenda') :
    agenda'.CycleClear ↔ agenda.CycleClear ∧ agenda'.focusStack = [] := by
  refine ⟨fun hclear ↦ ⟨⟨?_, ?_, ?_⟩, hclear.focus⟩, fun ⟨hclear, hfocus⟩ ↦ ⟨?_, ?_, hfocus⟩⟩
  · exact h.noLoop ▸ hclear.noLoop
  · exact h.lockOnActive ▸ hclear.lockOnActive
  · have hsuffix := h.focus
    rw [hclear.focus] at hsuffix
    exact List.suffix_nil.mp hsuffix
  · exact h.noLoop.trans hclear.noLoop
  · exact h.lockOnActive.trans hclear.lockOnActive

end Pushes

/-! ### Firings -/

/-- `fire_all_rules_impl`, of a session on which an execution may be under way: a call from a
listener or from a right-hand side is refused. -/
def fireAllRulesImpl (kb : KnowledgeBase) (steps : ℕ) (env : FireEnv) (executionActive : Bool)
    (maxRules : ℤ) (rounds : ℕ) (s : Session) : Option FireResult :=
  if executionActive then some ⟨{ session := s }, 0, .threw⟩
  else fireAllRules kb steps env maxRules rounds s

variable (kb : KnowledgeBase) (steps : ℕ) (env : FireEnv)

/-- The firings of a batch, each with the state it finds. -/
def batchFirings (maxRules : ℤ) : List PoppedActivationItem → ℕ → FireState →
    List (Activation × FireState)
  | [], _, _ => []
  | item :: batch, fired, s =>
    if s.haltRequested || limitReached maxRules fired then []
    else if !activationValid kb s.session item.activation then
      batchFirings maxRules batch fired
        { s with session := skipActivation item.activation s.session }
    else
      (item.activation, s) ::
        match fireActivation kb steps env item.activation s with
        | (_, true) => []
        | (s', false) => batchFirings maxRules batch (fired + 1) s'

/-- The firings of the rounds of a call. -/
def roundFirings (maxRules : ℤ) : ℕ → ℕ → FireState → List (Activation × FireState)
  | 0, _, _ => []
  | rounds + 1, fired, s =>
    let s := { s with session := flushDelayed (env.clock rounds) s.session }
    if s.haltRequested || limitReached maxRules fired then []
    else
      let s := { s with session := popBatch (batchBudget maxRules fired) s.session }
      if s.session.batch.isEmpty then []
      else
        let r := fireBatch kb steps env maxRules s.session.batch fired s
        batchFirings kb steps env maxRules s.session.batch fired s ++
          match r.outcome with
          | .threw => []
          | _ =>
            if r.state.haltRequested || limitReached maxRules r.fired then []
            else roundFirings maxRules rounds r.fired r.state

theorem roundFirings_succ (maxRules : ℤ) (rounds fired : ℕ) (s : FireState) :
    roundFirings kb steps env maxRules (rounds + 1) fired s =
      let c : FireState := { s with session := flushDelayed (env.clock rounds) s.session }
      let p : FireState := { c with session := popBatch (batchBudget maxRules fired) c.session }
      let r := fireBatch kb steps env maxRules p.session.batch fired p
      if c.haltRequested || limitReached maxRules fired then []
      else if p.session.batch.isEmpty then []
      else
        batchFirings kb steps env maxRules p.session.batch fired p ++
          if r.outcome = .threw then []
          else if r.state.haltRequested || limitReached maxRules r.fired then []
          else roundFirings kb steps env maxRules rounds r.fired r.state := by
  rw [roundFirings]
  dsimp only
  generalize fireBatch kb steps env maxRules _ fired _ = r
  obtain ⟨state, fired', outcome⟩ := r
  cases outcome <;> rfl

/-- The firings of a call that is let in. -/
def callFirings (maxRules : ℤ) (rounds : ℕ) (s : Session) : List (Activation × FireState) :=
  roundFirings kb steps env maxRules rounds 0
    { session := { s with agenda := s.agenda.seedLockOnActiveForFocus } }

/-- An exception of a listener or of the right-hand side leaves a firing. -/
def Escapes (f : Activation × FireState) : Prop :=
  (fireActivation kb steps env f.1 f.2).2 = true

/-- A firing finds the agenda clear, and keeps it so: the listener before it throws, or the rule
may loop and its right-hand side moves no focus. -/
def LeavesNothing (f : Activation × FireState) : Prop :=
  f.2.session.agenda.CycleClear ∧
    (env.beforeRuleFired f.1 f.2.session = true ∨
      f.1.rule.noLoop = false ∧
        ∀ program, env.rhs f.1 (enterFiring kb f.1 f.2.session) = some program →
          (executeRhs kb steps f.1.token program
            { f.2 with session := enterFiring kb f.1 f.2.session }).1.session.agenda.focusStack =
              [])

variable {kb steps env}

theorem enterFiring_clear_iff (a : Activation) (s : Session) :
    (enterFiring kb a s).agenda.CycleClear ↔ s.agenda.CycleClear ∧ a.rule.noLoop = false := by
  have hsame : SameCycle
      (if a.rule.noLoop then s.agenda.blockNoloop (s.noloopKey kb a.ruleId a.token) else s.agenda)
      (enterFiring kb a s).agenda := by
    unfold enterFiring
    dsimp only
    cases a.rule.activationGroup with
    | none => exact .refl _
    | some group => exact .cancelActivationGroup _ group a.hashValue
  rw [hsame.clear_iff]
  cases hloop : a.rule.noLoop with
  | false => simp
  | true =>
    simp only [if_true, Bool.true_eq_false, and_false, iff_false]
    intro hclear
    -- the key of the firing has just been blocked
    have hmem : s.noloopKey kb a.ruleId a.token ∈
        s.agenda.noLoopBlocked.insert (s.noloopKey kb a.ruleId a.token) :=
      List.mem_insert_self
    rw [show s.agenda.noLoopBlocked.insert _ = [] from hclear.noLoop] at hmem
    exact List.not_mem_nil hmem

/-- What a firing leaves is clear exactly when nothing is found and nothing is added. -/
theorem fireActivation_clear_iff (a : Activation) (s : FireState)
    (hpos : 0 < s.session.workingMemory.nextId) :
    (fireActivation kb steps env a s).1.session.agenda.CycleClear ↔
      LeavesNothing kb steps env (a, s) := by
  unfold fireActivation LeavesNothing
  cases hbefore : env.beforeRuleFired a s.session with
  | true => simp
  | false =>
    simp only [Bool.false_eq_true, if_false, false_or]
    cases hrhs : env.rhs a (enterFiring kb a s.session) with
    | none =>
      show (enterFiring kb a s.session).agenda.CycleClear ↔ _
      rw [enterFiring_clear_iff]
      simp
    | some program =>
      have hruns := @Leads.executeRhs kb steps a.token program
        { s with session := enterFiring kb a s.session }
      show (executeRhs kb steps a.token program
        { s with session := enterFiring kb a s.session }).1.session.agenda.CycleClear ↔ _
      rw [(Pushes.of_leads hruns hpos).clear_iff, enterFiring_clear_iff, and_assoc]
      simp

/-! ### The firings of a call -/

/-- A batch ends by an exception in the state that the one firing it escapes has left, but for the
batch. -/
theorem fireBatch_firings {P : FireState → Prop}
    (hleave : ∀ s : FireState, P { s with session := abandonBatch s.session } ↔ P s) (maxRules : ℤ)
    (batch : List PoppedActivationItem) (fired : ℕ) (s : FireState) :
    let r := fireBatch kb steps env maxRules batch fired s
    let firings := batchFirings kb steps env maxRules batch fired s
    (r.outcome = .threw ∧
        (P r.state ↔ ∀ f ∈ firings, Escapes kb steps env f →
          P (fireActivation kb steps env f.1 f.2).1)) ∨
      (r.outcome ≠ .threw ∧ ∀ f ∈ firings, ¬ Escapes kb steps env f) := by
  induction batch generalizing fired s with
  | nil => exact .inr ⟨(by rintro ⟨⟩), fun f hf ↦ absurd hf List.not_mem_nil⟩
  | cons item batch ih =>
    unfold fireBatch batchFirings
    by_cases hstop : (s.haltRequested || limitReached maxRules fired) = true
    · rw [if_pos hstop, if_pos hstop]
      exact .inr ⟨(by rintro ⟨⟩), fun f hf ↦ absurd hf List.not_mem_nil⟩
    · rw [if_neg hstop, if_neg hstop]
      by_cases hvalid : (!activationValid kb s.session item.activation) = true
      · rw [if_pos hvalid, if_pos hvalid]
        exact ih fired _
      · rw [if_neg hvalid, if_neg hvalid]
        rcases hfire : fireActivation kb steps env item.activation s with ⟨s', threw⟩
        cases threw with
        | true =>
          refine .inl ⟨rfl, ?_⟩
          have hescapes : Escapes kb steps env (item.activation, s) := congrArg Prod.snd hfire
          have hleft : (fireActivation kb steps env item.activation s).1 = s' :=
            congrArg Prod.fst hfire
          refine (hleave s').trans ⟨?_, fun hall ↦ ?_⟩
          · intro hs' f hf _
            cases List.mem_singleton.mp hf
            exact hleft ▸ hs'
          · exact hleft ▸ hall _ (List.mem_singleton_self _) hescapes
        | false =>
          have hstays : ¬ Escapes kb steps env (item.activation, s) := by
            intro hescapes
            exact Bool.noConfusion ((congrArg Prod.snd hfire).symm.trans hescapes)
          rcases ih (fired + 1) s' with ⟨hthrew, hiff⟩ | ⟨hdone, hnone⟩
          · refine .inl ⟨hthrew, hiff.trans ⟨fun hall f hf hescapes ↦ ?_, fun hall f hf ↦ ?_⟩⟩
            · rcases List.mem_cons.mp hf with rfl | hf
              · exact absurd hescapes hstays
              · exact hall f hf hescapes
            · exact hall f (List.mem_cons_of_mem _ hf)
          · refine .inr ⟨hdone, fun f hf ↦ ?_⟩
            rcases List.mem_cons.mp hf with rfl | hf
            · exact hstays
            · exact hnone f hf

/-- What the end of the loop establishes holds after a call exactly when every firing that an
exception leaves establishes it. -/
theorem fireRounds_firings {P : FireState → Prop}
    (hleave : ∀ s : FireState, P { s with session := abandonBatch s.session } ↔ P s)
    (hclear : ∀ s : FireState, P { s with session := clearCycle s.session }) (maxRules : ℤ)
    (rounds fired : ℕ) (s : FireState) {r : FireResult}
    (h : fireRounds kb steps env maxRules rounds fired s = some r) :
    P r.state ↔ ∀ f ∈ roundFirings kb steps env maxRules rounds fired s,
      Escapes kb steps env f → P (fireActivation kb steps env f.1 f.2).1 := by
  induction rounds generalizing fired s with
  | zero => cases h
  | succ rounds ih =>
    rw [fireRounds_succ] at h
    rw [roundFirings_succ]
    set s₁ : FireState := { s with session := flushDelayed (env.clock rounds) s.session } with hs₁
    dsimp only at h ⊢
    by_cases hstop : (s₁.haltRequested || limitReached maxRules fired) = true
    · rw [if_pos hstop] at h ⊢
      cases h
      exact iff_of_true (hclear s₁) fun f hf ↦ absurd hf List.not_mem_nil
    · rw [if_neg hstop] at h ⊢
      set s₂ : FireState := { s₁ with session := popBatch (batchBudget maxRules fired) s₁.session }
        with hs₂
      by_cases hempty : s₂.session.batch.isEmpty = true
      · rw [if_pos hempty] at h ⊢
        cases h
        exact iff_of_true (hclear s₂) fun f hf ↦ absurd hf List.not_mem_nil
      · rw [if_neg hempty] at h ⊢
        have hbatch := @fireBatch_firings kb steps env P hleave maxRules s₂.session.batch fired s₂
        dsimp only at hbatch
        set b := fireBatch kb steps env maxRules s₂.session.batch fired s₂ with hb
        rcases hbatch with ⟨hthrew, hiff⟩ | ⟨hdone, hnone⟩
        · rw [if_pos hthrew] at h ⊢
          rw [← Option.some.inj h, List.append_nil]
          exact hiff
        · -- only the firings of the later rounds can let an exception escape
          have hlater : ∀ later : List (Activation × FireState),
              (∀ f ∈ batchFirings kb steps env maxRules s₂.session.batch fired s₂ ++ later,
                Escapes kb steps env f → P (fireActivation kb steps env f.1 f.2).1) ↔
              ∀ f ∈ later, Escapes kb steps env f → P (fireActivation kb steps env f.1 f.2).1 := by
            refine fun later ↦ ⟨fun hall f hf ↦ hall f (List.mem_append_right _ hf), ?_⟩
            intro hall f hf hescapes
            rcases List.mem_append.mp hf with hf | hf
            · exact absurd hescapes (hnone f hf)
            · exact hall f hf hescapes
          rw [if_neg hdone] at h ⊢
          rw [hlater]
          by_cases hstop' : (b.state.haltRequested || limitReached maxRules b.fired) = true
          · rw [if_pos hstop'] at h ⊢
            cases h
            exact iff_of_true (hclear b.state) fun f hf ↦ absurd hf List.not_mem_nil
          · rw [if_neg hstop'] at h ⊢
            exact ih _ _ h

theorem batchFirings_pos (maxRules : ℤ) (batch : List PoppedActivationItem) (fired : ℕ)
    (s : FireState) (hpos : 0 < s.session.workingMemory.nextId) {f : Activation × FireState}
    (hf : f ∈ batchFirings kb steps env maxRules batch fired s) :
    0 < f.2.session.workingMemory.nextId := by
  induction batch generalizing fired s with
  | nil => exact absurd hf List.not_mem_nil
  | cons item batch ih =>
    unfold batchFirings at hf
    split at hf
    · exact absurd hf List.not_mem_nil
    · split at hf
      · exact ih fired { s with session := skipActivation item.activation s.session } hpos hf
      · rcases List.mem_cons.mp hf with rfl | hf
        · exact hpos
        · split at hf
          · exact absurd hf List.not_mem_nil
          · next s' hfire =>
            have hbefore : env.beforeRuleFired item.activation s.session = false := by
              cases hbefore : env.beforeRuleFired item.activation s.session with
              | true =>
                rw [fireActivation, if_pos hbefore] at hfire
                cases hfire
              | false => rfl
            have hpos' :=
              (CycleLeads.fireActivation kb steps env item.activation s hbefore hpos).1
            rw [hfire] at hpos'
            exact ih (fired + 1) s' hpos' hf

theorem roundFirings_pos (maxRules : ℤ) (rounds fired : ℕ) (s : FireState)
    (hpos : 0 < s.session.workingMemory.nextId) {f : Activation × FireState}
    (hf : f ∈ roundFirings kb steps env maxRules rounds fired s) :
    0 < f.2.session.workingMemory.nextId := by
  induction rounds generalizing fired s with
  | zero => exact absurd hf List.not_mem_nil
  | succ rounds ih =>
    unfold roundFirings at hf
    dsimp only at hf
    split at hf
    · exact absurd hf List.not_mem_nil
    · split at hf
      · exact absurd hf List.not_mem_nil
      · rcases List.mem_append.mp hf with hf | hf
        · refine batchFirings_pos maxRules _ fired _ ?_ hf
          exact hpos
        · split at hf
          · exact absurd hf List.not_mem_nil
          · split at hf
            · exact absurd hf List.not_mem_nil
            · refine ih _ _ ?_ hf
              have hpopped : 0 < (popBatch (batchBudget maxRules fired)
                  (flushDelayed (env.clock rounds) s.session)).workingMemory.nextId := hpos
              refine ((CycleLeads.fireBatch kb steps env maxRules _ fired _ ?_ ?_).1 ?_).1
              · rfl
              · exact hpopped
              · exact hpopped

/-! ### The state after a call -/

/-- **What a call leaves of its cycle**: for every session, which gives its ids out from one on,
and every call, a call that is let in leaves nothing exactly when each of its firings that an
exception leaves finds the agenda clear, is not of a no-loop rule that has begun and moves no
focus; a call that is refused leaves nothing exactly when there was nothing. After a call that
leaves nothing, every activation is accepted, and the activations of the main focus are served. -/
theorem fireAllRules_clear_iff (kb : KnowledgeBase) (steps : ℕ) (env : FireEnv)
    (executionActive : Bool) (maxRules : ℤ) (rounds : ℕ) (s : Session)
    (hpos : 0 < s.workingMemory.nextId) {r : FireResult}
    (h : fireAllRulesImpl kb steps env executionActive maxRules rounds s = some r) :
    (r.state.session.agenda.CycleClear ↔
      if executionActive || !s.isConsistent then s.agenda.CycleClear
      else ∀ f ∈ callFirings kb steps env maxRules rounds s,
        Escapes kb steps env f → LeavesNothing kb steps env f) ∧
    (r.state.session.agenda.CycleClear → ∀ a,
      r.state.session.isBlocked kb a = false ∧
        (r.state.session.agenda.inFocus a = true ↔ a.rule.agendaGroup.getD "MAIN" = "MAIN")) := by
  refine ⟨?_, fun hclear a ↦ ⟨hclear.isBlocked kb a, hclear.inFocus_iff a⟩⟩
  unfold fireAllRulesImpl fireAllRules at h
  cases executionActive with
  | true =>
    cases h
    simp
  | false =>
    cases hconsistent : s.isConsistent with
    | false =>
      simp only [hconsistent, Bool.not_false, if_true, Bool.false_eq_true, if_false] at h
      cases h
      simp
    | true =>
      have hlet : ¬ (!s.isConsistent) = true := by simp [hconsistent]
      rw [if_neg Bool.false_ne_true, if_neg hlet] at h
      rw [fireRounds_firings (P := fun s ↦ s.session.agenda.CycleClear) (fun _ ↦ Iff.rfl)
        (fun s ↦ clearCycle_clear s.session) maxRules rounds 0 _ h]
      simp only [Bool.not_true, Bool.or_self, Bool.false_eq_true, if_false]
      refine forall₃_congr fun f hf _ ↦ ?_
      exact fireActivation_clear_iff f.1 f.2 (roundFirings_pos maxRules rounds 0 _ hpos hf)

/-- The rule `A()`, which does not loop. -/
def noLoopBase : KnowledgeBase :=
  oneRuleBase { name := "once", noLoop := true, conditionGroups := [[{ factType := "A" }]] }

def oneMatch : Session := runSession noLoopBase 1 [.add 1] (newSession noLoopBase 1 emptyHeap)

/-- The match of the one fact. -/
def onceMatch : Activation := activationOf noLoopBase 0 (some []) (.mk 1 .root 1)

/-- Right-hand sides that do nothing leave nothing. -/
theorem fireAllRules_clear_iff_idle :
    ∃ r, fireAllRulesImpl noLoopBase 1 idleEnv false (-1) 2 oneMatch = some r ∧ r.fired = 1 ∧
      r.state.session.agenda.CycleClear := by
  have hiff := (fireAllRules_clear_iff noLoopBase 1 idleEnv false (-1) 2 oneMatch
    (by decide +kernel) rfl).1
  refine ⟨_, rfl, rfl, hiff.mpr fun f hf hescapes ↦ ?_⟩
  exact Bool.noConfusion hescapes

/-- **An exception leaves a no-loop rule blocked**: its right-hand side throws, which withdraws
what it did, and after the call the same match is not accepted. -/
theorem throwing_stays_blocked :
    ∃ r, fireAllRulesImpl noLoopBase 1 throwingEnv false (-1) 2 oneMatch = some r ∧
      r.outcome = .threw ∧ ¬ r.state.session.agenda.CycleClear ∧
      onceMatch.token ∈ (r.state.session.mem 2).terminal ∧
      r.state.session.isBlocked noLoopBase onceMatch = true ∧
      (r.state.session.addActivation noLoopBase onceMatch).agenda.agendaMap = [] := by
  refine ⟨_, rfl, rfl, fun hclear ↦ ?_, List.mem_cons_self, rfl, rfl⟩
  exact absurd hclear.noLoop (by decide +kernel)

end RulesForge
