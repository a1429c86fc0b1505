import RulesForge.Engine.CycleState
import RulesForge.Engine.LostActivations

/-!
# No-loop

A rule with no-loop is meant to be executed at most once in a call of `fire_all_rules` for the same
sequence of fact ids. The cycle notes the key of an activation when it is executed, and looks at
the keys only when an activation is added (`add_activation`). Nothing looks at them when a batch
is popped, so an activation that waits already while another one of its rule and its facts is
executed escapes the test.

The log of a call tells its executions (`executions`). In every call in which a no-loop rule is
executed only while no other activation of it waits for the same ids, and its matches begin with
facts that have ids, it is executed at most once for each sequence of ids (`noLoop_executed_once`);
`bumped_executesTwice` is a call in which one rule changes the fact of another that waits in the
same batch.
-/

namespace RulesForge

/-- The rule of an id. -/
def KnowledgeBase.ruleAt (kb : KnowledgeBase) (rule : ℕ) : ParsedRule :=
  kb.rules[rule]?.getD { name := "" }

/-- The fact ids of a token, in the order of its facts. -/
def Session.tupleIds (s : Session) (w : TokenWME) : List ℤ :=
  (w.facts.filter (· ≠ 0)).map fun p ↦ (s.heap p).id

/-- The facts of a token have ids. -/
def Session.HasIds (s : Session) (w : TokenWME) : Prop :=
  ∀ p ∈ w.facts, p ≠ 0 → (s.heap p).id ≠ 0

instance (s : Session) (w : TokenWME) : Decidable (s.HasIds w) :=
  inferInstanceAs (Decidable (∀ p ∈ w.facts, p ≠ 0 → (s.heap p).id ≠ 0))

/-! ### Executions -/

/-- An execution: the rule, and the ids of its facts. -/
abbrev RuleExecution := ℕ × List ℤ

/-- The executions that a log records. -/
def executions (log : List (SessionData × AgendaEvent)) : List RuleExecution :=
  log.filterMap fun
    | (m, .fired a) => some (a.ruleId, m.toSession.tupleIds a.token)
    | _ => none

/-- What is asked of a call: when an activation of a no-loop rule is fired, no other activation of the
rule waits for the same ids; and a match of such a rule begins with facts that have ids. -/
def LoopGuarded (kb : KnowledgeBase) : SessionData × AgendaEvent → Prop
  | (m, .fired a) => (kb.ruleAt a.ruleId).noLoop = true →
      ∀ b ∈ m.agenda.activations ++ m.batch.tail.map PoppedActivationItem.activation,
        b.ruleId = a.ruleId →
          m.toSession.HasIds b.token ∧ m.toSession.tupleIds b.token ≠ m.toSession.tupleIds a.token
  | (m, .added a _) => (kb.ruleAt a.ruleId).noLoop = true → m.toSession.HasIds a.token
  | _ => True

instance (kb : KnowledgeBase) (entry : SessionData × AgendaEvent) :
    Decidable (LoopGuarded kb entry) :=
  match entry with
  | (m, .fired a) => inferInstanceAs (Decidable (_ → ∀ b ∈ m.agenda.activations ++
      m.batch.tail.map PoppedActivationItem.activation, b.ruleId = a.ruleId → _ ∧ _))
  | (m, .added a _) => inferInstanceAs (Decidable (_ → m.toSession.HasIds a.token))
  | (_, .ended _) | (_, .left _) | (_, .entered _) | (_, .ticked _) | (_, .popped)
  | (_, .skipped _) | (_, .thrown) => isTrue True.intro

/-! ### What leaves the keys alone -/

namespace SameCycle

variable {agenda : Agenda}

theorem requeueBatch (agenda : Agenda) (batch : List PoppedActivationItem) :
    SameCycle agenda (agenda.requeueBatchActivations batch 0) :=
  List.foldlRecOn _ _ (refl agenda) fun agenda' h item _ ↦
    h.trans (enter agenda' item.activation _ _)

theorem compactIfNeeded (agenda : Agenda) (staleSkipped : ℕ) :
    SameCycle agenda (agenda.compactIfNeeded staleSkipped) := by
  unfold Agenda.compactIfNeeded
  split <;> exact ⟨rfl, rfl, rfl⟩

theorem popNextBatchFrom (queue : List (ℤ × ℕ)) (room : ℕ) (agenda : Agenda)
    (deferred : List (ℤ × ℕ)) (staleSkipped : ℕ) :
    SameCycle agenda (Agenda.popNextBatchFrom queue room agenda deferred staleSkipped).2 := by
  -- what is left of the queue, and pushed back, is no state of the cycle
  have hdone : ∀ (agenda : Agenda) queue deferred staleSkipped, SameCycle agenda
      ((Agenda.pushBack { agenda with agendaQueue := queue } deferred).compactIfNeeded
        staleSkipped) :=
    fun agenda queue deferred staleSkipped ↦
      have h := compactIfNeeded
        (Agenda.pushBack { agenda with agendaQueue := queue } deferred) staleSkipped
      ⟨h.noLoop, h.lockOnActive, h.focus⟩
  induction queue generalizing room agenda deferred staleSkipped with
  | nil => cases room <;> exact hdone _ _ _ _
  | cons entry queue ih =>
    obtain ⟨salience, hash⟩ := entry
    cases room with
    | zero => exact hdone _ _ _ _
    | succ room =>
      unfold Agenda.popNextBatchFrom
      split
      · exact ih _ _ _ _
      · next candidate hcandidate =>
        split
        · have h := ih room { agenda.leaveGroup candidate.rule hash with
            agendaMap := AssocMap.erase hash agenda.agendaMap } deferred staleSkipped
          exact (leaveGroup agenda candidate.rule hash).trans ⟨h.noLoop, h.lockOnActive, h.focus⟩
        · exact ih _ _ _ _

theorem popNextBatchActivations (agenda : Agenda) (maxItems : ℕ) :
    SameCycle agenda (agenda.popNextBatchActivations maxItems).2 := by
  unfold Agenda.popNextBatchActivations
  split
  · exact refl agenda
  · exact popNextBatchFrom _ _ _ _ _

theorem flushReadyDelayed (agenda : Agenda) (now : ℤ) :
    SameCycle agenda (agenda.flushReadyDelayed now) := by
  unfold Agenda.flushReadyDelayed
  dsimp only
  set waiting := agenda.delayedActivations.filter fun d ↦ ¬ d.1 ≤ now
  have h := addBatch { agenda with delayedActivations := waiting }
  exact ⟨(h _).noLoop, (h _).lockOnActive, (h _).focus⟩

/-- Where the state of the cycle is the same, no key is lost. -/
theorem subset {agenda' : Agenda} (h : SameCycle agenda agenda') :
    agenda.noLoopBlocked ⊆ agenda'.noLoopBlocked :=
  h.noLoop ▸ List.Subset.refl _

end SameCycle

/-- A firing notes its key, and clears none. -/
theorem enterFiring_noLoopBlocked (kb : KnowledgeBase) (a : Activation) (s : Session) :
    (enterFiring kb a s).agenda.noLoopBlocked =
      if a.rule.noLoop then s.agenda.noLoopBlocked.insert (s.noloopKey kb a.ruleId a.token)
      else s.agenda.noLoopBlocked := by
  unfold enterFiring
  dsimp only
  split
  · cases a.rule.noLoop <;> rfl
  · rw [(SameCycle.cancelActivationGroup _ _ _).noLoop]
    cases a.rule.noLoop <;> rfl

section Steps

variable {kb : KnowledgeBase} {s s' : Session} {w : TokenWME}

/-- Before the end of a call no key is cleared. -/
theorem CycleStep.noLoopBlocked (h : CycleStep kb s s') :
    s.agenda.noLoopBlocked ⊆ s'.agenda.noLoopBlocked := by
  cases h with
  | propagates hstep =>
    cases hstep with
    | quiet hquiet =>
      rw [hquiet.agenda]
      exact List.Subset.refl _
    | event e _ =>
      rw [(Pushes.event s e).noLoop]
      exact List.Subset.refl _
  | starts rule =>
    rw [(Pushes.addActivation s _).noLoop]
    exact List.Subset.refl _
  | ticks | seeds | throws | skips => exact List.Subset.refl _
  | flushes now => exact (SameCycle.flushReadyDelayed s.agenda now).subset
  | pops maxItems _ => exact (SameCycle.popNextBatchActivations s.agenda maxItems).subset
  | requeues => exact (SameCycle.requeueBatch s.agenda s.batch).subset
  | fires _ _ =>
    rw [enterFiring_noLoopBlocked]
    split
    · exact fun key hkey ↦ List.mem_insert_of_mem hkey
    · exact List.Subset.refl _

/-- The heap after an event of matches. -/
theorem MatchEvent.apply_heap (e : MatchEvent) (s : Session) : (e.apply kb s).heap = s.heap := by
  cases e with
  | begins n rule bindings w =>
    refine Session.heap_of_base ?_
    simp only [MatchEvent.apply, applyAutoFocus_base, addActivation_base]
    rfl
  | batch n rule bindings wmes =>
    obtain ⟨hbase, -, -⟩ := batchMatches_silent kb n rule bindings wmes s
    refine Session.heap_of_base ?_
    show (terminalLeftBatch kb n rule bindings wmes s).base = s.base
    rw [terminalLeftBatch_eq]
    split
    · exact hbase
    · exact (applyAutoFocus_base _).trans hbase
  | ends | enters | leaves | focuses | clears => rfl

/-- A step keeps the ids that facts have. -/
theorem CycleStep.id_eq (h : CycleStep kb s s') (p : FactPtr) (hp : (s.heap p).id ≠ 0) :
    (s'.heap p).id = (s.heap p).id := by
  cases h with
  | propagates hstep =>
    cases hstep with
    | quiet hquiet => exact hquiet.id p hp
    | event e _ => rw [e.apply_heap]
  | starts rule => rw [Session.heap_of_base (addActivation_base s _)]
  | ticks | seeds | flushes | pops | requeues | skips | fires | throws => rfl

/-- What an entry says that is added is of a rule of the knowledge base, and was not blocked. -/
def Unblocked (kb : KnowledgeBase) (entry : SessionData × AgendaEvent) : Prop :=
  ∀ a batched, entry.2 = .added a batched →
    a.rule = kb.ruleAt a.ruleId ∧ entry.1.toSession.isBlocked kb a = false

theorem MatchEvent.unblocked (e : MatchEvent) (s : Session) :
    ∀ entry ∈ e.entries kb s, Unblocked kb entry := by
  cases e with
  | begins n rule bindings w =>
    simp only [MatchEvent.entries]
    split
    · exact fun _ hentry ↦ absurd hentry List.not_mem_nil
    · next hfree =>
      have hfree : s.isBlocked kb (activationOf kb rule (some bindings) w) = false :=
        (Bool.not_eq_true _).mp hfree
      intro entry hentry a batched ha
      cases List.mem_singleton.mp hentry
      cases ha
      exact ⟨rfl, hfree⟩
  | batch n rule bindings wmes =>
    have hof : ∀ a ∈ (batchMatches kb n rule bindings wmes s).2, a.rule = kb.ruleAt a.ruleId := by
      refine List.foldlRecOn wmes _
        (motive := fun x : Session × List Activation ↦ ∀ a ∈ x.2, a.rule = kb.ruleAt a.ruleId)
        (fun _ ha ↦ absurd ha List.not_mem_nil) ?_
      rintro ⟨s', added⟩ hadded w -
      dsimp only at hadded ⊢
      split
      · exact hadded
      · exact List.forall_mem_append.mpr ⟨hadded, List.forall_mem_singleton.mpr rfl⟩
    intro entry hentry a batched ha
    obtain ⟨b, hb, rfl⟩ := List.mem_map.mp hentry
    cases ha
    obtain ⟨hb, hfree⟩ := List.mem_filter.mp hb
    exact ⟨hof a hb, (Bool.not_eq_true' _).mp hfree⟩
  | ends | enters | leaves =>
    intro entry hentry a batched ha
    cases List.mem_singleton.mp hentry
    cases ha
  | focuses | clears => exact fun _ hentry ↦ absurd hentry List.not_mem_nil

/-- The key of an execution. -/
def RuleExecution.key (kb : KnowledgeBase) (e : RuleExecution) : ℕ :=
  e.2.reverse.foldl (fun h id ↦ hashCombine h (id % 2 ^ 64).toNat) (kb.hashes.ruleAddress e.1)

/-- The key is made of the rule and the ids. -/
theorem noloopKey_eq (s : Session) (rule : ℕ) (w : TokenWME) :
    s.noloopKey kb rule w = RuleExecution.key kb (rule, s.tupleIds w) := by
  unfold Session.noloopKey RuleExecution.key Session.tupleIds
  rw [← List.map_reverse, ← List.filter_reverse, List.foldl_map, List.foldl_filter]
  congr 1
  funext h p
  by_cases hp : p = 0 <;> simp [hp]

/-- The ids of a token do not change while its facts have the same ids. -/
theorem Session.HasIds.tupleIds_eq (h : s.HasIds w)
    (hids : ∀ p, (s.heap p).id ≠ 0 → (s'.heap p).id = (s.heap p).id) :
    s'.tupleIds w = s.tupleIds w := by
  unfold Session.tupleIds
  refine List.map_congr_left fun p hp ↦ ?_
  obtain ⟨hmem, hne⟩ := List.mem_filter.mp hp
  exact hids p (h p hmem (by simpa using hne))

theorem Session.HasIds.of_ids (h : s.HasIds w)
    (hids : ∀ p, (s.heap p).id ≠ 0 → (s'.heap p).id = (s.heap p).id) : s'.HasIds w := by
  intro p hmem hne
  rw [hids p (h p hmem hne)]
  exact h p hmem hne

/-- What is added where the key of an execution is noted has other ids. -/
theorem Unblocked.tupleIds_ne {m : SessionData} {a : Activation} {batched : Bool}
    {e : RuleExecution} (h : Unblocked kb (m, .added a batched))
    (hloop : (kb.ruleAt e.1).noLoop = true) (hkey : e.key kb ∈ m.agenda.noLoopBlocked)
    (hrule : a.ruleId = e.1) : m.toSession.tupleIds a.token ≠ e.2 := by
  intro heq
  obtain ⟨hown, hfree⟩ := h a batched rfl
  have hnoted : m.toSession.noloopKey kb a.ruleId a.token = e.key kb := by
    rw [noloopKey_eq, heq, hrule]
  have hblocked : m.toSession.isBlocked kb a = true := by
    unfold Session.isBlocked
    rw [hown, hrule, hloop, ← hrule, hnoted]
    have hmem : m.toSession.agenda.isNoloopBlocked (e.key kb) = true :=
      List.contains_iff_mem.mpr hkey
    rw [hmem]
    rfl
  rw [hfree] at hblocked
  cases hblocked

end Steps

/-! ### What a step logs -/

section Logged

variable {kb : KnowledgeBase} {s s' : Session} {entries : List (SessionData × AgendaEvent)}

/-- Whatever a step adds is not blocked. -/
theorem CycleStep.unblocked (h : CycleStep kb s s') (hlogs : Logs s s' entries) :
    ∀ entry ∈ entries, Unblocked kb entry := by
  have hnothing : ∀ {e : AgendaEvent} {m : SessionData}, (∀ a batched, e ≠ .added a batched) →
      ∀ entry ∈ [(m, e)], Unblocked kb entry := by
    intro e m hnone entry hentry a batched ha
    cases List.mem_singleton.mp hentry
    exact absurd ha (hnone a batched)
  have hempty : ∀ entry ∈ ([] : List (SessionData × AgendaEvent)), Unblocked kb entry :=
    fun _ hentry ↦ absurd hentry List.not_mem_nil
  cases h with
  | propagates hstep =>
    cases hstep with
    | quiet hquiet =>
      rw [hlogs.unique (.none hquiet.log)]
      exact hempty
    | event e _ =>
      rw [hlogs.unique (e.logs kb s)]
      exact e.unblocked s
  | starts rule =>
    rw [hlogs.unique (s.addActivation_logs kb _)]
    split
    · exact hempty
    · next hfree =>
      intro entry hentry a batched ha
      cases List.mem_singleton.mp hentry
      cases ha
      have hfree : s.isBlocked kb (activationOf kb rule none .root) = false :=
        (Bool.not_eq_true _).mp hfree
      exact ⟨rfl, hfree⟩
  | ticks | flushes | pops | skips | fires | throws =>
    rw [hlogs.unique (.note _ rfl)]
    exact hnothing fun _ _ ↦ AgendaEvent.noConfusion
  | seeds | requeues =>
    rw [hlogs.unique (.none rfl)]
    exact hempty

/-- A step executes nothing, or the head of the batch. -/
theorem CycleStep.executions_eq (h : CycleStep kb s s') (hlogs : Logs s s' entries) :
    executions entries = [] ∨ ∃ item batch, s.batch = item :: batch ∧
      s' = enterFiring kb item.activation s ∧
      entries = [(s.toSessionData, .fired item.activation)] := by
  rcases h.unfired_or_fires hlogs with hnone | ⟨item, batch, hbatch, -, hfires, hone⟩
  · refine .inl (List.filterMap_eq_nil_iff.mpr fun entry hentry ↦ ?_)
    obtain ⟨m, event⟩ := entry
    have hunfired := hnone _ hentry
    cases event with
    | fired a => cases hunfired
    | _ => rfl
  · exact .inr ⟨item, batch, hbatch, hfires, hone⟩

/-- Over any number of calls what is added is not blocked. -/
theorem FireRun.unblocked (h : FireRun kb s s') (hs : ∀ entry ∈ s.log, Unblocked kb entry) :
    ∀ entry ∈ s'.log, Unblocked kb entry := by
  refine h.preserves (P := fun s ↦ ∀ entry ∈ s.log, Unblocked kb entry) (fun hstep hs ↦ ?_) hs
  cases hstep with
  | cycle hstep =>
    obtain ⟨entries, hlogs⟩ := hstep.logs
    rw [hlogs.log]
    exact List.forall_mem_append.mpr ⟨hs, hstep.unblocked hlogs⟩
  | clears => exact hs

/-- What waits is of a rule of the knowledge base. -/
theorem Sound.rule_eq (h : Sound s.events s.agenda s.batch)
    (hadded : ∀ entry ∈ s.log, Unblocked kb entry) {b : Activation}
    (hb : Waits s.agenda s.batch b) : b.rule = kb.ruleAt b.ruleId := by
  obtain ⟨batched, hmem⟩ := mem_broughtBy.mp (h.added hb)
  obtain ⟨entry, hentry, heq⟩ := List.mem_map.mp hmem
  exact (hadded entry hentry b batched heq).1

end Logged

/-! ### The invariant -/

/-- What is known within a call that has begun in a session: the keys of the executions are noted,
nothing waits that could repeat one of them, and none was a repetition. -/
structure Once (kb : KnowledgeBase) (s s' : Session) : Prop where
  begun : s.log <+: s'.log
  sound : Sound s'.events s'.agenda s'.batch
  added : ∀ entry ∈ s'.log, Unblocked kb entry
  blocked : ∀ e ∈ executions (s.logSince s'), (kb.ruleAt e.1).noLoop = true →
    e.key kb ∈ s'.agenda.noLoopBlocked
  waiting : ∀ e ∈ executions (s.logSince s'), (kb.ruleAt e.1).noLoop = true → ∀ b,
    Waits s'.agenda s'.batch b → b.ruleId = e.1 → s'.HasIds b.token ∧ s'.tupleIds b.token ≠ e.2
  once : (executions (s.logSince s')).Pairwise fun e e' ↦
    (kb.ruleAt e.1).noLoop = true → e ≠ e'

namespace Once

variable {kb : KnowledgeBase} {s s' s'' : Session} {entries : List (SessionData × AgendaEvent)}

theorem start (h : Sound s.events s.agenda s.batch) (hadded : ∀ entry ∈ s.log, Unblocked kb entry) :
    Once kb s s := by
  have hnone : executions (s.logSince s) = [] := by
    unfold Session.logSince
    rw [List.drop_length]
    rfl
  refine ⟨List.prefix_refl _, h, hadded, ?_, ?_, ?_⟩
  · rw [hnone]
    exact fun e he ↦ absurd he List.not_mem_nil
  · rw [hnone]
    exact fun e he ↦ absurd he List.not_mem_nil
  · rw [hnone]
    exact List.Pairwise.nil

/-- What is known of the executions so far stays so over a step. -/
theorem waiting_step (h : Once kb s s') (hstep : CycleStep kb s' s'') (hlogs : Logs s' s'' entries)
    (hguard : ∀ entry ∈ entries, LoopGuarded kb entry) {e : RuleExecution}
    (he : e ∈ executions (s.logSince s')) (hloop : (kb.ruleAt e.1).noLoop = true) {b : Activation}
    (hb : Waits s''.agenda s''.batch b) (hrule : b.ruleId = e.1) :
    s''.HasIds b.token ∧ s''.tupleIds b.token ≠ e.2 := by
  have hids := hstep.id_eq
  -- it waited before, or it was added, and then the key of `e` did not keep it off
  have hbefore : s'.HasIds b.token ∧ s'.tupleIds b.token ≠ e.2 := by
    obtain ⟨entries', hlogs', hagenda⟩ := (FireStep.cycle hstep).anyAgendaStep
    rw [← hlogs.unique hlogs'] at hagenda
    rcases hagenda.waits h.sound.keyed hb with hb | ⟨batched, hadded⟩
    · exact h.waiting e he hloop b hb hrule
    · obtain ⟨⟨m, event⟩, hentry, heq⟩ := List.mem_map.mp hadded
      subst heq
      have hmoment := hlogs.moments _ hentry
      have hheap : s'.heap = m.toSession.heap := hmoment.heap.symm
      have hhas : m.toSession.HasIds b.token := hguard _ hentry (hrule ▸ hloop)
      have hne : m.toSession.tupleIds b.token ≠ e.2 :=
        (hstep.unblocked hlogs _ hentry).tupleIds_ne hloop
          (hmoment.noLoop ▸ h.blocked e he hloop) hrule
      unfold Session.HasIds Session.tupleIds
      rw [hheap]
      exact ⟨hhas, hne⟩
  exact ⟨hbefore.1.of_ids hids, by rw [hbefore.1.tupleIds_eq hids]; exact hbefore.2⟩

/-- **What a step executes**, is noted; nothing is left that could repeat it, and it repeats nothing. -/
theorem fresh (h : Once kb s s') (hstep : CycleStep kb s' s'') (hlogs : Logs s' s'' entries)
    (hguard : ∀ entry ∈ entries, LoopGuarded kb entry) {e : RuleExecution}
    (he : e ∈ executions entries) :
    ((kb.ruleAt e.1).noLoop = true → e.key kb ∈ s''.agenda.noLoopBlocked ∧ ∀ b,
      Waits s''.agenda s''.batch b → b.ruleId = e.1 →
        s''.HasIds b.token ∧ s''.tupleIds b.token ≠ e.2) ∧
      ∀ e' ∈ executions (s.logSince s'), (kb.ruleAt e'.1).noLoop = true → e' ≠ e := by
  rcases hstep.executions_eq hlogs with hnone | ⟨item, batch, hbatch, rfl, rfl⟩
  · rw [hnone] at he
    exact absurd he List.not_mem_nil
  · set a := item.activation with ha
    have hitem : Waits s'.agenda s'.batch a :=
      .inr (.inr ⟨item, hbatch ▸ List.mem_cons_self, rfl⟩)
    have hown : a.rule = kb.ruleAt a.ruleId := h.sound.rule_eq h.added hitem
    cases List.mem_singleton.mp he
    refine ⟨fun hloop ↦ ⟨?_, fun b hb hrule ↦ ?_⟩, ?_⟩
    · rw [enterFiring_noLoopBlocked, hown, if_pos hloop, noloopKey_eq]
      exact List.mem_insert_self
    · -- what waits after the firing waited before it, and is not the activation fired
      have hwaited : b ∈ s'.agenda.activations ++
          s'.batch.tail.map PoppedActivationItem.activation := by
        have hloses := @AgendaStep.loses_enterFiring kb a s'
        refine List.mem_append.mpr ?_
        rcases hb with ⟨hash, hb⟩ | ⟨time, hb⟩ | ⟨other, hother, rfl⟩
        · exact .inl (List.mem_append_left _
            (List.mem_map_of_mem (f := Prod.snd) (hloses.map.mp hb).2))
        · rw [hloses.delayed] at hb
          exact .inl (List.mem_append_right _ (List.mem_map_of_mem (f := Prod.snd) hb))
        · exact .inr (List.mem_map_of_mem hother)
      exact hguard _ (List.mem_singleton_self _) hloop b hwaited hrule
    · intro e' he' hloop heq
      subst heq
      exact (h.waiting _ he' hloop a hitem rfl).2 rfl

/-- **One step.** -/
theorem step (h : Once kb s s') (hstep : CycleStep kb s' s'')
    (hguard : ∀ entry ∈ s.logSince s'', LoopGuarded kb entry) : Once kb s s'' := by
  obtain ⟨entries, hlogs, hagenda⟩ := (FireStep.cycle hstep).anyAgendaStep
  have hsince := hlogs.logSince h.begun
  rw [hsince] at hguard
  have hguard : ∀ entry ∈ entries, LoopGuarded kb entry := (List.forall_mem_append.mp hguard).2
  have hfresh := fun {e} (he : e ∈ executions entries) ↦ h.fresh hstep hlogs hguard he
  have hexecuted : executions (s.logSince s'') =
      executions (s.logSince s') ++ executions entries := by
    rw [hsince]
    exact List.filterMap_append
  refine ⟨h.begun.trans (FireStep.cycle hstep).log, ?_, ?_, ?_, ?_, ?_⟩
  · rw [hlogs.events]
    exact h.sound.step hagenda
  · rw [hlogs.log]
    exact List.forall_mem_append.mpr ⟨h.added, hstep.unblocked hlogs⟩
  · rw [hexecuted]
    refine List.forall_mem_append.mpr ⟨fun e he hloop ↦ ?_, fun e he hloop ↦ ?_⟩
    · exact hstep.noLoopBlocked (h.blocked e he hloop)
    · exact ((hfresh he).1 hloop).1
  · rw [hexecuted]
    refine List.forall_mem_append.mpr ⟨fun e he hloop b hb hrule ↦ ?_, fun e he hloop ↦ ?_⟩
    · exact h.waiting_step hstep hlogs hguard he hloop hb hrule
    · exact ((hfresh he).1 hloop).2
  · rw [hexecuted]
    refine List.pairwise_append.mpr ⟨h.once, ?_, fun e he e' he' hloop ↦ ?_⟩
    · rcases hstep.executions_eq hlogs with hnone | ⟨_, _, -, -, rfl⟩
      · rw [hnone]
        exact List.Pairwise.nil
      · exact List.pairwise_singleton _ _
    · exact (hfresh he').2 e he hloop

/-- The steps of a call up to its end. -/
theorem run (h : Once kb s s) (hrun : Relation.ReflTransGen (CycleStep kb) s s')
    (hguard : ∀ entry ∈ s.logSince s', LoopGuarded kb entry) : Once kb s s' := by
  refine run_invariant (R := CycleStep kb) (fun hstep ↦ (FireStep.cycle hstep).log)
    (G := fun log ↦ ∀ entry ∈ log.drop s.log.length, LoopGuarded kb entry) (P := Once kb s)
    (fun hlog entry hentry ↦ hlog entry ?_) (fun hstep hlog hs ↦ hs.step hstep hlog) hrun hguard h
  rw [List.drop_append]
  exact List.mem_append_left _ hentry

end Once

/-! ### Calls -/

/-- **A no-loop rule is executed at most once** for each sequence of fact ids in a call of
`fire_all_rules`, whatever was done before, when no other activation of the rule waits for the same
ids while it is executed and its matches begin with facts that have ids. -/
theorem noLoop_executed_once (kb : KnowledgeBase) (steps : ℕ) (heap : Heap) (ops : List EngineOp)
    {s : Session} (h : runEngine kb steps ops (newSession kb steps heap) = some s) (env : FireEnv)
    (maxRules : ℤ) (rounds : ℕ) {r : FireResult}
    (hr : fireAllRules kb steps env maxRules rounds s = some r)
    (hguard : ∀ entry ∈ s.logSince r.state.session, LoopGuarded kb entry) :
    (executions (s.logSince r.state.session)).Pairwise fun e e' ↦
      (kb.ruleAt e.1).noLoop = true → e ≠ e' := by
  obtain ⟨hrest, hrun⟩ := runEngine_run kb steps heap ops h
  obtain ⟨-, s', hleads, hend⟩ := fireAllRules_run kb steps env maxRules rounds s hrest.batch
    hrest.nextId hr
  obtain ⟨-, hcall⟩ := hleads hrest.nextId
  -- the end of the call logs nothing
  have hlog : r.state.session.log = s'.log := by
    rcases hend with hend | hend <;> rw [hend]
    rfl
  unfold Session.logSince at hguard ⊢
  rw [hlog] at hguard ⊢
  have hstart : Once kb s s := .start (Sound.start.run (s := { heap := heap }) hrun)
    (hrun.unblocked fun entry hentry ↦ absurd hentry List.not_mem_nil)
  exact (hstart.run hcall hguard).once

/-- A right-hand side that changes the facts of a token. -/
def touchFacts (w : TokenWME) : RhsProgram :=
  w.facts.foldr (fun p next ↦ .act (.propagate p none) fun _ ↦ next) .done

def touchingEnv : FireEnv := { idleEnv with rhs := fun a _ ↦ some (touchFacts a.token) }

/-- A session with two matches of a rule that does not loop. -/
def twoMatches : Option Session :=
  runEngine noLoopBase 1 [.session (.add 1), .session (.add 2)] (newSession noLoopBase 1 emptyHeap)

/-- The executions of a call without a limit. -/
def executedBy (kb : KnowledgeBase) (env : FireEnv) (s : Session) : List RuleExecution :=
  ((fireAllRules kb 1 env (-1) 3 s).map fun r ↦ executions (s.logSince r.state.session)).getD []

/-- Both matches are executed once, though each execution changes its fact. -/
theorem noLoop_executed_once_twoMatches :
    ∃ s, twoMatches = some s ∧ executedBy noLoopBase touchingEnv s = [(0, [2]), (0, [1])] ∧
      (executedBy noLoopBase touchingEnv s).Pairwise fun e e' ↦
        (noLoopBase.ruleAt e.1).noLoop = true → e ≠ e' := by
  have hcalled : ∃ s ∈ twoMatches, (fireAllRules noLoopBase 1 touchingEnv (-1) 3 s).isSome = true := by
    decide +kernel
  obtain ⟨s, hs, hsome⟩ := hcalled
  obtain ⟨r, hr⟩ := Option.isSome_iff_exists.mp hsome
  have hends : ∀ s ∈ twoMatches, ∀ r ∈ fireAllRules noLoopBase 1 touchingEnv (-1) 3 s,
      (∀ entry ∈ s.logSince r.state.session, LoopGuarded noLoopBase entry) ∧
        executions (s.logSince r.state.session) = [(0, [2]), (0, [1])] := by
    decide +kernel
  obtain ⟨hguard, hexecuted⟩ := hends s hs r hr
  have hby : executedBy noLoopBase touchingEnv s = executions (s.logSince r.state.session) := by
    rw [executedBy, hr]
    rfl
  refine ⟨s, hs, hby.trans hexecuted, ?_⟩
  rw [hby]
  exact noLoop_executed_once noLoopBase 1 emptyHeap _ hs touchingEnv (-1) 3 hr hguard

/-- Two rules `A()` with no-loop, of which the first one changes the fact. -/
def bumpBase : KnowledgeBase :=
  rulesBase [
    { name := "bump", noLoop := true, salience := 1,
      conditionGroups := [[{ factType := "A" }]] },
    { name := "once", noLoop := true, conditionGroups := [[{ factType := "A" }]] }]

def bumpEnv : FireEnv :=
  { idleEnv with rhs := fun a _ ↦
      if a.ruleId = 0 then some (.act (.propagate 1 none) fun _ ↦ .done) else none }

/-- **A no-loop rule is executed twice for one fact**: the activations of both rules are popped
together, the first one changes the fact, which adds the second rule's activation anew, and then
the popped one is executed as well as the new one. -/
theorem bumped_executesTwice :
    ∃ s, runEngine bumpBase 1 [.session (.add 1)] (newSession bumpBase 1 emptyHeap) = some s ∧
      executedBy bumpBase bumpEnv s = [(0, [1]), (1, [1]), (1, [1])] ∧
      ¬ (executedBy bumpBase bumpEnv s).Pairwise
        fun e e' ↦ (bumpBase.ruleAt e.1).noLoop = true → e ≠ e' := by
  obtain ⟨s, hs⟩ := Option.isSome_iff_exists.mp (show (runEngine bumpBase 1 [.session (.add 1)]
    (newSession bumpBase 1 emptyHeap)).isSome = true by decide +kernel)
  have hall : ∀ s ∈ runEngine bumpBase 1 [.session (.add 1)] (newSession bumpBase 1 emptyHeap),
      executedBy bumpBase bumpEnv s = [(0, [1]), (1, [1]), (1, [1])] := by
    decide +kernel
  have hexecuted := hall s hs
  refine ⟨s, hs, hexecuted, ?_⟩
  rw [hexecuted]
  exact of_decide_eq_false (by decide +kernel)

end RulesForge
