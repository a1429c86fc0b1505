import RulesForge.Engine.AgendaContents
import RulesForge.Engine.FireEvents

/-!
# Runs of an engine

What a program does with a session: it adds, changes and retracts facts, gives an agenda group
the focus and fires the rules, any number of times and in any order, while the clock goes on. Every
such sequence is a run of steps from the empty session (`runEngine_run`), so that its log tells all
that has become of activations.

What a step does to the agenda and to the batch is one of few things, told in terms of what the
agenda holds (`AgendaStep`).
-/

namespace RulesForge

/-! ### Steps of the agenda -/

/-- An event that no activation notices. -/
def AgendaEvent.Neutral : AgendaEvent → Prop
  | .entered _ | .ticked _ => True
  | _ => False

/-- What a step does to the agenda and the batch, with its events. What is fired is under a guard. -/
inductive AgendaStep (Ok : Activation → Agenda → List PoppedActivationItem → Prop) :
    Agenda → List PoppedActivationItem → List AgendaEvent →
      Agenda → List PoppedActivationItem → Prop
  | same {agenda agenda' : Agenda} {batch events} : (∀ e ∈ events, e.Neutral) →
      agenda'.agendaMap = agenda.agendaMap →
      agenda'.delayedActivations = agenda.delayedActivations →
      (∀ {group hash}, agenda'.InGroup group hash → agenda.InGroup group hash) →
      AgendaStep Ok agenda batch events agenda' batch
  | adds {agenda agenda' : Agenda} {batch added} (batched : Bool) : agenda.Gains added agenda' →
      AgendaStep Ok agenda batch (added.map (.added · batched)) agenda' batch
  | delays {agenda agenda' : Agenda} {batch a} (time : ℤ) :
      agenda'.agendaMap = agenda.agendaMap →
      agenda'.delayedActivations = agenda.delayedActivations ++ [(time, a)] →
      (∀ {group hash}, agenda'.InGroup group hash → agenda.InGroup group hash) →
      AgendaStep Ok agenda batch [.added a false] agenda' batch
  | ends {agenda agenda' : Agenda} {batch hash} : agenda.Loses (· = hash) agenda' →
      AgendaStep Ok agenda batch [.ended hash] agenda' batch
  | leaves {agenda agenda' : Agenda} {batch touches} :
      agenda.Loses (fun hash ↦ ∃ b, (hash, b) ∈ agenda.agendaMap ∧ touches b.token = true)
        agenda' →
      AgendaStep Ok agenda batch [.left touches] agenda' batch
  | pops {agenda agenda' : Agenda} {batch} :
      (AssocMap.Unique agenda.agendaMap → agenda.Popped batch agenda') →
      AgendaStep Ok agenda [] [.popped] agenda' batch
  | requeues {agenda agenda' : Agenda} {batch} :
      agenda.Gains (batch.map PoppedActivationItem.activation) agenda' →
      AgendaStep Ok agenda batch [] agenda' []
  | skips {agenda : Agenda} {item batch} :
      AgendaStep Ok agenda (item :: batch) [.skipped item.activation] agenda batch
  | fires {agenda agenda' : Agenda} {item batch} :
      Ok item.activation agenda (item :: batch) →
      agenda.Loses (fun hash ↦ hash ≠ item.activation.hashValue ∧
        ∃ group, item.activation.rule.activationGroup = some group ∧ agenda.InGroup group hash)
        agenda' →
      AgendaStep Ok agenda (item :: batch) [.fired item.activation] agenda' batch
  | throws {agenda : Agenda} {batch} : AgendaStep Ok agenda batch [.thrown] agenda []
  | flushes {agenda agenda' : Agenda} {batch} (now : ℤ) (ready : List Activation) :
      (∀ a, a ∈ ready ↔ ∃ time ≤ now, (time, a) ∈ agenda.delayedActivations) →
      Agenda.Gains { agenda with
        delayedActivations := agenda.delayedActivations.filter fun d ↦ ¬ d.1 ≤ now } ready
        agenda' →
      AgendaStep Ok agenda batch [.ticked now] agenda' batch

/-- A change that no activation notices, and then some that are put on the agenda. -/
theorem Agenda.SameActivations.gains {agenda agenda' agenda'' : Agenda} {added : List Activation}
    (hsame : agenda.SameActivations agenda') (hgains : agenda'.Gains added agenda'') :
    agenda.Gains added agenda'' where
  unique h := hgains.unique (by rwa [hsame.map])
  map := by
    rw [← hsame.map]
    exact hgains.map
  kept := by
    rw [← hsame.map]
    exact hgains.kept
  gained := hgains.gained
  delayed := hgains.delayed.trans hsame.delayed
  groups h := (hgains.groups h).imp (Agenda.inGroup_congr hsame.groups).mp id

namespace AgendaStep

variable {kb : KnowledgeBase} {Ok : Activation → Agenda → List PoppedActivationItem → Prop}
  {agenda agenda' : Agenda} {batch : List PoppedActivationItem}

theorem of_sameActivations (h : agenda.SameActivations agenda') :
    AgendaStep Ok agenda batch [] agenda' batch :=
  .same (fun _ he ↦ absurd he List.not_mem_nil) h.map h.delayed (Agenda.inGroup_congr h.groups).mp

theorem of_eq (h : agenda' = agenda) : AgendaStep Ok agenda batch [] agenda' batch := by
  subst h
  exact of_sameActivations ⟨rfl, rfl, rfl⟩

/-- An event that the agenda does not notice. -/
theorem neutral {e : AgendaEvent} (he : e.Neutral) : AgendaStep Ok agenda batch [e] agenda batch :=
  .same (fun _ hmem ↦ List.mem_singleton.mp hmem ▸ he) rfl rfl id

/-- Adding, and a change that no activation notices. -/
theorem addWithDuration {now : ℤ} {a : Activation}
    (h : (agenda.addWithDuration now a).SameActivations agenda') :
    AgendaStep Ok agenda batch [.added a false] agenda' batch := by
  obtain ⟨hmap, hdelayed, hgroups⟩ := h
  unfold Agenda.addWithDuration at hmap hdelayed hgroups
  split at hmap
  · next hduration =>
    rw [if_pos hduration] at hdelayed hgroups
    exact .delays _ hmap hdelayed (Agenda.inGroup_congr hgroups).mp
  · next hduration =>
    rw [if_neg hduration] at hdelayed hgroups
    have hgains := Agenda.Gains.add agenda a
    have hadds : AgendaStep Ok agenda batch ([a].map (.added · false)) agenda' batch := by
      refine .adds false ⟨?_, ?_, ?_, ?_, hdelayed.trans hgains.delayed, ?_⟩
      · rw [hmap]
        exact hgains.unique
      · rw [hmap]
        exact hgains.map
      · rw [hmap]
        exact hgains.kept
      · rw [hmap]
        exact hgains.gained
      · exact fun hgroup ↦ hgains.groups ((Agenda.inGroup_congr hgroups).mp hgroup)
    exact hadds

theorem applyAutoFocus_sameActivations (kb : KnowledgeBase) (rule : ℕ) (s : Session) :
    s.agenda.SameActivations (applyAutoFocus kb rule s).agenda := by
  unfold applyAutoFocus
  dsimp only
  split <;> exact ⟨rfl, rfl, rfl⟩

theorem of_addActivation (s : Session) (a : Activation) :
    AgendaStep Ok s.agenda batch
      ((if s.isBlocked kb a then [] else [(s.toSessionData, .added a false)]).map Prod.snd)
      (s.addActivation kb a).agenda batch := by
  unfold Session.addActivation
  split
  · exact .of_eq rfl
  · exact .addWithDuration ⟨rfl, rfl, rfl⟩

/-- A batch of matches puts its activations on the agenda. -/
theorem gains_batch (kb : KnowledgeBase) (n rule : ℕ) (bindings : Bindings) (wmes : List TokenWME) (s : Session) :
    ∃ added, ((MatchEvent.batch n rule bindings wmes).entries kb s).map Prod.snd =
        added.map (.added · true) ∧
      s.agenda.Gains added (terminalLeftBatch kb n rule bindings wmes s).agenda := by
  obtain ⟨-, hagenda, -⟩ := batchMatches_silent kb n rule bindings wmes s
  simp only [MatchEvent.entries, List.map_map]
  refine ⟨_, rfl, ?_⟩
  rw [terminalLeftBatch_eq]
  split
  · next hnone =>
    rw [hnone, ← hagenda]
    exact .refl _
  · set new := batchMatches kb n rule bindings wmes s
    set focused := applyAutoFocus kb rule new.1 with hfocused
    have hsame : s.agenda.SameActivations focused.agenda := by
      rw [← hagenda]
      exact applyAutoFocus_sameActivations kb rule new.1
    exact hsame.gains (.addBatch focused.agenda _)

theorem of_batch (n rule : ℕ) (bindings : Bindings) (wmes : List TokenWME) (s : Session) :
    AgendaStep Ok s.agenda batch
      (((MatchEvent.batch n rule bindings wmes).entries kb s).map Prod.snd)
      (terminalLeftBatch kb n rule bindings wmes s).agenda batch := by
  obtain ⟨added, hentries, hgains⟩ := gains_batch kb n rule bindings wmes s
  rw [hentries]
  exact .adds true hgains

/-- What an event of matches does to the agenda. -/
theorem of_event (s : Session) (batch : List PoppedActivationItem) (e : MatchEvent) :
    AgendaStep Ok s.agenda batch ((e.entries kb s).map Prod.snd) (e.apply kb s).agenda batch := by
  cases e with
  | begins n rule bindings w =>
    have hsame := applyAutoFocus_sameActivations kb rule
      ((updateTerminal n (· ++ [w]) s).addActivation kb (activationOf kb rule (some bindings) w))
    simp only [MatchEvent.entries, MatchEvent.apply]
    unfold Session.addActivation at hsame ⊢
    split
    · next hblocked =>
      rw [if_pos hblocked] at hsame
      exact of_sameActivations hsame
    · next hblocked =>
      rw [if_neg hblocked] at hsame
      exact addWithDuration hsame
  | batch n rule bindings wmes => exact of_batch n rule bindings wmes s
  | ends n rule bindings w => exact .ends (Agenda.loses_remove _ _)
  | enters fact => exact .neutral True.intro
  | leaves fact => exact .leaves (Agenda.loses_removeActivationsWithFactId _ _ _)
  | focuses group => exact of_sameActivations ⟨rfl, rfl, rfl⟩
  | clears => exact of_eq rfl

/-- What entering a firing does to the agenda. -/
theorem loses_enterFiring (a : Activation) (s : Session) :
    s.agenda.Loses (fun hash ↦ hash ≠ a.hashValue ∧
      ∃ group, a.rule.activationGroup = some group ∧ s.agenda.InGroup group hash)
      (enterFiring kb a s).agenda := by
  unfold enterFiring
  dsimp only
  set agenda := if a.rule.noLoop then s.agenda.blockNoloop (s.noloopKey kb a.ruleId a.token)
    else s.agenda with hagenda
  have hsame : s.agenda.SameActivations agenda := by
    rw [hagenda]
    split <;> exact ⟨rfl, rfl, rfl⟩
  split
  · next hnone =>
    refine ⟨fun h ↦ ?_, ?_, hsame.delayed, (Agenda.inGroup_congr hsame.groups).mp⟩
    · rw [hsame.map]
      exact h
    · simp [hsame.map, hnone]
  · next group hgroup =>
    have hloses := agenda.loses_cancelActivationGroup group a.hashValue
    refine ⟨fun h ↦ hloses.unique (hsame.map ▸ h), hloses.map.trans ?_,
      hloses.delayed.trans hsame.delayed,
      fun h ↦ (Agenda.inGroup_congr hsame.groups).mp (hloses.groups h)⟩
    simp [hsame.map, Agenda.inGroup_congr hsame.groups, hgroup]

/-- The delayed activations whose time has come go to the agenda. -/
theorem flush (agenda : Agenda) (batch : List PoppedActivationItem) (now : ℤ) :
    AgendaStep Ok agenda batch [.ticked now] (agenda.flushReadyDelayed now) batch := by
  refine .flushes now _ (fun a ↦ ?_) (.addBatch _ _)
  simp only [List.mem_map, (List.perm_insertionSort _ _).mem_iff, List.mem_filter,
    decide_eq_true_eq, Prod.exists, exists_eq_right]
  exact exists_congr fun time ↦ and_comm

end AgendaStep

/-- **A step does one of these**, and writes its events to the log; what has to hold of the agenda
and the batch when an activation is fired may be read off the log. -/
theorem FireStep.agendaStep {kb : KnowledgeBase}
    (Ok : Activation → Agenda → List PoppedActivationItem → Prop) {s s' : Session} (h : FireStep kb s s')
    (hok : ∀ m a, (m, .fired a) ∈ s'.log → Ok a m.agenda m.batch) :
    ∃ entries, Logs s s' entries ∧
      AgendaStep Ok s.agenda s.batch (entries.map Prod.snd) s'.agenda s'.batch := by
  cases h with
  | cycle hstep =>
    cases hstep with
    | propagates hstep =>
      have hbatch := hstep.batch
      cases hstep with
      | quiet hquiet =>
        rw [hbatch]
        exact ⟨_, .none hquiet.log, .of_eq hquiet.agenda⟩
      | event e _ =>
        rw [hbatch]
        exact ⟨_, e.logs kb s, .of_event s _ e⟩
    | starts rule =>
      have hbatch : (s.addActivation kb (activationOf kb rule none .root)).batch = s.batch := by
        unfold Session.addActivation
        split <;> rfl
      rw [hbatch]
      exact ⟨_, s.addActivation_logs kb _, .of_addActivation s _⟩
    | ticks now => exact ⟨_, .note _ rfl, .neutral True.intro⟩
    | seeds => exact ⟨_, .none rfl, .of_sameActivations ⟨rfl, rfl, rfl⟩⟩
    | flushes now => exact ⟨_, .note _ rfl, .flush _ _ now⟩
    | pops maxItems hempty =>
      rw [hempty]
      exact ⟨_, .note _ rfl, .pops fun hunique ↦ Agenda.popped hunique maxItems⟩
    | requeues => exact ⟨_, .none rfl, .requeues (.requeueBatch _ _)⟩
    | @skips item batch hbatch _ =>
      have htail : (skipActivation item.activation s).batch = batch := by
        show s.batch.tail = batch
        rw [hbatch, List.tail_cons]
      rw [htail, hbatch]
      exact ⟨_, .note _ rfl, .skips⟩
    | @fires item batch hbatch _ =>
      have htail : (enterFiring kb item.activation s).batch = batch := by
        show s.batch.tail = batch
        rw [hbatch, List.tail_cons]
      have hnow : Ok item.activation s.agenda s.batch :=
        hok s.toSessionData item.activation (List.mem_append_right _ (List.mem_singleton_self _))
      rw [htail, hbatch]
      exact ⟨_, .note _ rfl, .fires (hbatch ▸ hnow) (AgendaStep.loses_enterFiring _ _)⟩
    | throws => exact ⟨_, .note _ rfl, .throws⟩
  | clears =>
    refine ⟨_, .none rfl, .same (fun _ he ↦ absurd he List.not_mem_nil) rfl rfl ?_⟩
    rintro group hash ⟨members, hmembers, -⟩
    cases hmembers

/-- A step, with nothing asked of what is fired. -/
theorem FireStep.anyAgendaStep {kb : KnowledgeBase} {s s' : Session} (h : FireStep kb s s') :
    ∃ entries, Logs s s' entries ∧
      AgendaStep (fun _ _ _ ↦ True) s.agenda s.batch (entries.map Prod.snd) s'.agenda s'.batch :=
  h.agendaStep _ fun _ _ _ ↦ True.intro

/-- The map has one entry for each hash, which is the hash of its activation. -/
structure Agenda.Keyed (agenda : Agenda) : Prop where
  unique : AssocMap.Unique agenda.agendaMap
  key : ∀ {hash b}, (hash, b) ∈ agenda.agendaMap → hash = b.hashValue

namespace Agenda.Keyed

variable {agenda agenda' : Agenda}

theorem congr (h : agenda.Keyed) (hmap : agenda'.agendaMap = agenda.agendaMap) :
    agenda'.Keyed := by
  refine ⟨?_, ?_⟩
  · rw [hmap]
    exact h.unique
  · rw [hmap]
    exact h.key

theorem gains (h : agenda.Keyed) {added : List Activation} (hgains : agenda.Gains added agenda') :
    agenda'.Keyed :=
  ⟨hgains.unique h.unique, fun hmem ↦ (hgains.map hmem).elim h.key And.right⟩

theorem loses (h : agenda.Keyed) {lost : ℕ → Prop} (hloses : agenda.Loses lost agenda') :
    agenda'.Keyed :=
  ⟨hloses.unique h.unique, fun hmem ↦ h.key (hloses.map.mp hmem).2⟩

theorem step {Ok : Activation → Agenda → List PoppedActivationItem → Prop} {events : List AgendaEvent}
    {batch batch' : List PoppedActivationItem} (h : agenda.Keyed)
    (hstep : AgendaStep Ok agenda batch events agenda' batch') : agenda'.Keyed := by
  cases hstep with
  | same _ hmap _ _ => exact h.congr hmap
  | adds _ hgains => exact h.gains hgains
  | delays _ hmap _ _ => exact h.congr hmap
  | ends hloses => exact h.loses hloses
  | leaves hloses => exact h.loses hloses
  | pops hpopped =>
    have hpopped := hpopped h.unique
    exact ⟨hpopped.unique, fun hmem ↦ h.key (hpopped.map hmem)⟩
  | requeues hgains => exact h.gains hgains
  | skips => exact h
  | fires _ hloses => exact h.loses hloses
  | throws => exact h
  | flushes now _ _ hgains =>
    have hwaiting : Agenda.Keyed { agenda with
        delayedActivations := agenda.delayedActivations.filter fun d ↦ ¬ d.1 ≤ now } := h.congr rfl
    exact hwaiting.gains hgains

/-- The agenda of an empty session. -/
theorem empty : Agenda.Keyed {} :=
  ⟨List.nodup_nil, fun h ↦ absurd h List.not_mem_nil⟩

end Agenda.Keyed

/-- The activations of the rules without conditions. -/
def initialActivations (kb : KnowledgeBase) : List Activation :=
  (kb.rules.zipIdx.filter fun (rule, _) ↦ rule.enabled && rule.hasNoConditions).map
    fun (_, i) ↦ activationOf kb i none .root

/-- What holds of the empty session and is kept by adding such an activation holds at the
start. -/
theorem startSession_induction {kb : KnowledgeBase} {heap : Heap} {P : Session → Prop}
    (hempty : P { heap := heap })
    (hadd : ∀ s a, a ∈ initialActivations kb → P s → P (s.addActivation kb a)) :
    P (startSession kb heap) := by
  refine List.foldlRecOn _ _ hempty fun s hs entry hentry ↦ ?_
  dsimp only
  split
  · next hinitial =>
    refine hadd s _ (List.mem_map.mpr ⟨entry, List.mem_filter.mpr ⟨hentry, hinitial⟩, rfl⟩) hs
  · exact hs

/-! ### Calls -/

/-- The operations of a session, and the call that fires the rules. -/
inductive EngineOp where
  | session (op : SessionOp)
  | focus (group : String)
  | tick (now : ℤ)
  | fire (env : FireEnv) (maxRules : ℤ) (rounds : ℕ)

/-- The session after an operation; none when the bound on the rounds does not suffice. -/
def EngineOp.run (kb : KnowledgeBase) (steps : ℕ) : EngineOp → Session → Option Session
  | .session op, s => some (op.run kb steps s)
  | .focus group, s => some (s.setFocus group)
  | .tick now, s => some (s.readClock now)
  | .fire env maxRules rounds, s =>
    (fireAllRules kb steps env maxRules rounds s).map fun r ↦ r.state.session

/-- The session after a sequence of operations. -/
def runEngine (kb : KnowledgeBase) (steps : ℕ) (ops : List EngineOp) (s : Session) :
    Option Session :=
  ops.foldlM (fun s op ↦ op.run kb steps s) s

/-- A session between two calls: no batch is left, and ids are given out from one on. -/
structure AtRest (s : Session) : Prop where
  batch : s.batch = []
  nextId : 0 < s.workingMemory.nextId

namespace AtRest

variable {kb : KnowledgeBase} {steps : ℕ} {s s' : Session}

theorem of_leads (h : AtRest s) (hleads : Leads kb s s') : AtRest s' ∧ FireRun kb s s' := by
  obtain ⟨hpos, hrun⟩ := CycleLeads.of_leads hleads h.nextId
  exact ⟨⟨(hleads.batch h.nextId).trans h.batch, hpos⟩, CycleStep.fireRun hrun⟩

theorem fireAllRules {env : FireEnv} {maxRules : ℤ} {rounds : ℕ} (h : AtRest s) {r : FireResult}
    (hr : fireAllRules kb steps env maxRules rounds s = some r) :
    AtRest r.state.session ∧ FireRun kb s r.state.session := by
  obtain ⟨hbatch, s', hleads, hend⟩ := fireAllRules_run kb steps env maxRules rounds s h.batch
    h.nextId hr
  obtain ⟨hpos, hrun⟩ := hleads h.nextId
  have hrun : FireRun kb s s' := CycleStep.fireRun hrun
  rcases hend with hend | hend
  · rw [hend] at hbatch ⊢
    exact ⟨⟨hbatch, hpos⟩, hrun⟩
  · rw [hend] at hbatch ⊢
    exact ⟨⟨hbatch, hpos⟩, hrun.tail .clears⟩

/-- One operation. -/
theorem run (h : AtRest s) (op : EngineOp) (hop : op.run kb steps s = some s') :
    AtRest s' ∧ FireRun kb s s' := by
  cases op with
  | session op =>
    cases hop
    exact h.of_leads (op.leads kb steps s)
  | focus group =>
    cases hop
    exact h.of_leads (.setFocus group s)
  | tick now =>
    cases hop
    exact ⟨⟨h.batch, h.nextId⟩, .single (.cycle (.ticks now))⟩
  | fire env maxRules rounds =>
    obtain ⟨r, hr, rfl⟩ := Option.map_eq_some_iff.mp hop
    exact h.fireAllRules hr

/-- A sequence of operations. -/
theorem runEngine (h : AtRest s) (ops : List EngineOp) (hops : runEngine kb steps ops s = some s') :
    AtRest s' ∧ FireRun kb s s' := by
  induction ops generalizing s with
  | nil =>
    cases hops
    exact ⟨h, .refl⟩
  | cons op ops ih =>
    obtain ⟨s₁, hop, hrest⟩ := Option.bind_eq_some_iff.mp hops
    obtain ⟨h₁, hrun⟩ := h.run op hop
    obtain ⟨h', hrun'⟩ := ih h₁ hrest
    exact ⟨h', hrun.trans hrun'⟩

/-- The start of a session. -/
theorem newSession (kb : KnowledgeBase) (steps : ℕ) (heap : Heap) :
    AtRest (newSession kb steps heap) ∧
      FireRun kb { heap := heap } (newSession kb steps heap) := by
  have hstart : AtRest (startSession kb heap) ∧
      FireRun kb { heap := heap } (startSession kb heap) := by
    refine List.foldlRecOn _ _ (motive := fun s ↦ AtRest s ∧ FireRun kb { heap := heap } s)
      ⟨⟨rfl, one_pos⟩, .refl⟩ ?_
    rintro s ⟨hs, hrun⟩ ⟨rule, i⟩ -
    dsimp only
    split
    · refine ⟨?_, hrun.tail (.cycle (.starts i))⟩
      unfold Session.addActivation
      split
      · exact hs
      · exact ⟨hs.batch, hs.nextId⟩
    · exact ⟨hs, hrun⟩
  obtain ⟨hnew, hrun⟩ := hstart.1.of_leads (newSession_leads kb steps heap)
  exact ⟨hnew, hstart.2.trans hrun⟩

end AtRest

/-- **Every sequence of operations is a run of steps**, from the empty session. -/
theorem runEngine_run (kb : KnowledgeBase) (steps : ℕ) (heap : Heap) (ops : List EngineOp)
    {s : Session} (h : runEngine kb steps ops (newSession kb steps heap) = some s) :
    AtRest s ∧ FireRun kb { heap := heap } s := by
  obtain ⟨hnew, hstart⟩ := AtRest.newSession kb steps heap
  obtain ⟨hs, hrun⟩ := hnew.runEngine ops h
  exact ⟨hs, hstart.trans hrun⟩

end RulesForge
