import RulesForge.Engine.Execution
import RulesForge.Engine.SessionInvariant
import RulesForge.Rete.Propagation
import Mathlib.Logic.Relation

/-!
# Matches as events

Whatever a session does, its terminal nodes, its agenda and its working memory change by few
kinds of event: a match begins or ends at a terminal node, or a batch of matches begins there; a fact
enters or leaves working memory, a group gets the focus, and a failed roll-back clears working
memory. Everything else is **quiet** (`Quiet`). Every operation of a session leads from one session
to the next by such steps (`SessionOp.leads`), each of which adds its entries to the log
(`MatchEvent.apply_log`).
-/

namespace RulesForge

/-! ### Events -/

section Batch

variable (kb : KnowledgeBase) (n rule : ℕ) (bindings : Bindings)

/-- The new tokens of a batch at a terminal node: the session that remembers them, and their
activations. -/
def batchMatches (wmes : List TokenWME) (s : Session) : Session × List Activation :=
  wmes.foldl (fun (s, added) w ↦
    if w ∈ (s.mem n).terminal then (s, added)
    else (updateTerminal n (· ++ [w]) s, added ++ [activationOf kb rule (some bindings) w])) (s, [])

/-- What a batch does at a terminal node, in terms of its new tokens. -/
theorem terminalLeftBatch_eq (wmes : List TokenWME) (s : Session) :
    terminalLeftBatch kb n rule bindings wmes s =
      if (batchMatches kb n rule bindings wmes s).2 = [] then
        (batchMatches kb n rule bindings wmes s).1
      else
        (applyAutoFocus kb rule (batchMatches kb n rule bindings wmes s).1).addActivationsBatch kb
          (batchMatches kb n rule bindings wmes s).2 :=
  rfl

end Batch

/-- What a propagation, or an operation, does to terminal nodes, agenda and working memory. -/
inductive MatchEvent where
  | begins (n rule : ℕ) (bindings : Bindings) (w : TokenWME)
  | batch (n rule : ℕ) (bindings : Bindings) (wmes : List TokenWME)
  | ends (n rule : ℕ) (bindings : Bindings) (w : TokenWME)
  | enters (fact : FactPtr)
  | leaves (fact : FactPtr)
  | focuses (group : String)
  | clears

namespace MatchEvent

variable (kb : KnowledgeBase)

/-- A match begins at a terminal node that does not hold the token, and ends where it is held;
a fact that enters working memory has an id. -/
def Enabled (s : Session) : MatchEvent → Prop
  | begins n rule bindings w =>
    kb.network.kind n = .terminal rule bindings ∧ w ∉ (s.mem n).terminal
  | batch n rule bindings _ => kb.network.kind n = .terminal rule bindings
  | ends n rule bindings w => kb.network.kind n = .terminal rule bindings ∧ w ∈ (s.mem n).terminal
  | enters fact => (s.heap fact).id ≠ 0
  | leaves _ | focuses _ | clears => True

/-- The session after an event. -/
def apply : MatchEvent → Session → Session
  | begins n rule bindings w, s =>
    applyAutoFocus kb rule
      ((updateTerminal n (· ++ [w]) s).addActivation kb (activationOf kb rule (some bindings) w))
  | batch n rule bindings wmes, s => terminalLeftBatch kb n rule bindings wmes s
  | ends n rule _ w, s =>
    (updateTerminal n (·.erase w) s).removeActivation (activationHash kb.hashes rule w)
  | enters fact, s => insertWorkingMemory fact s
  | leaves fact, s => leaveFact fact s
  | focuses group, s => s.setFocus group
  | clears, s => clearWorkingMemory s

/-- What an event adds to the log. A match that is blocked by no-loop or lock-on-active gets no
activation. -/
def entries (s : Session) : MatchEvent → List (SessionData × AgendaEvent)
  | begins n rule bindings w =>
    let s := updateTerminal n (· ++ [w]) s
    let a := activationOf kb rule (some bindings) w
    if s.isBlocked kb a then [] else [(s.toSessionData, .added a false)]
  | batch n rule bindings wmes =>
    let (s, added) := batchMatches kb n rule bindings wmes s
    let s := applyAutoFocus kb rule s
    (added.filter fun a ↦ !s.isBlocked kb a).map fun a ↦ (s.toSessionData, .added a true)
  | ends n rule _ w =>
    [((updateTerminal n (·.erase w) s).toSessionData, .ended (activationHash kb.hashes rule w))]
  | enters fact => [(s.toSessionData, .entered fact)]
  | leaves fact =>
    [(s.toSessionData, .left fun w ↦ wmeReferencesFact (factIds s.heap) w (s.heap fact).id)]
  | focuses _ | clears => []

end MatchEvent

theorem applyAutoFocus_log (kb : KnowledgeBase) (rule : ℕ) (s : Session) :
    (applyAutoFocus kb rule s).log = s.log := by
  unfold applyAutoFocus
  dsimp only
  split <;> rfl

/-- The new tokens of a batch leave everything but the memory of their node. -/
theorem batchMatches_silent (kb : KnowledgeBase) (n rule : ℕ) (bindings : Bindings)
    (wmes : List TokenWME) (s : Session) :
    (batchMatches kb n rule bindings wmes s).1.base = s.base ∧
      (batchMatches kb n rule bindings wmes s).1.agenda = s.agenda ∧
      (batchMatches kb n rule bindings wmes s).1.log = s.log := by
  refine List.foldlRecOn wmes _
    (motive := fun x : Session × List Activation ↦ x.1.base = s.base ∧ x.1.agenda = s.agenda ∧
      x.1.log = s.log) ⟨rfl, rfl, rfl⟩ ?_
  rintro ⟨s', added⟩ ⟨hbase, hagenda, hlog⟩ w -
  dsimp only
  split
  · exact ⟨hbase, hagenda, hlog⟩
  · exact ⟨hbase, hagenda, hlog⟩

/-- **The log of an event.** -/
theorem MatchEvent.apply_log (kb : KnowledgeBase) (e : MatchEvent) (s : Session) :
    (e.apply kb s).log = s.log ++ e.entries kb s := by
  cases e with
  | begins n rule bindings w =>
    simp only [MatchEvent.apply, MatchEvent.entries, applyAutoFocus_log, Session.addActivation]
    split
    · exact (List.append_nil _).symm
    · rfl
  | batch n rule bindings wmes =>
    obtain ⟨-, -, hlog⟩ := batchMatches_silent kb n rule bindings wmes s
    show (terminalLeftBatch kb n rule bindings wmes s).log = _
    rw [terminalLeftBatch_eq]
    split
    · next hnone =>
      rw [hlog]
      simp [MatchEvent.entries, hnone]
    · show (applyAutoFocus kb rule _).log ++ _ = _
      rw [applyAutoFocus_log, hlog]
      rfl
  | ends n rule bindings w => rfl
  | enters fact => rfl
  | leaves fact => rfl
  | focuses group => exact (List.append_nil _).symm
  | clears => exact (List.append_nil _).symm

/-- A change that leaves terminal nodes, agenda, batch, clock and working memory, and the ids that
facts have. -/
structure Quiet (s s' : Session) : Prop where
  agenda : s'.agenda = s.agenda
  log : s'.log = s.log
  batch : s'.batch = s.batch
  now : s'.now = s.now
  terminal : ∀ n, (s'.mem n).terminal = (s.mem n).terminal
  store : s'.workingMemory.facts = s.workingMemory.facts
  nextId : s.workingMemory.nextId ≤ s'.workingMemory.nextId
  id : ∀ f, (s.heap f).id ≠ 0 → (s'.heap f).id = (s.heap f).id

/-- The parts of a session that a quiet change leaves and memories play no part in. -/
def Session.quietParts (s : Session) :
    Agenda × List (SessionData × AgendaEvent) × List PoppedActivationItem × ℤ :=
  (s.agenda, s.log, s.batch, s.now)

theorem Quiet.of_eq {s s' : Session} (hparts : s'.quietParts = s.quietParts) (hmem : s'.mem = s.mem)
    (hstore : s'.workingMemory = s.workingMemory) (hheap : s'.heap = s.heap) : Quiet s s' := by
  simp only [Session.quietParts, Prod.mk.injEq] at hparts
  obtain ⟨hagenda, hlog, hbatch, hnow⟩ := hparts
  refine ⟨hagenda, hlog, hbatch, hnow, fun n ↦ ?_, ?_, ?_, fun f _ ↦ ?_⟩
  · rw [hmem]
  · rw [hstore]
  · rw [hstore]
  · rw [hheap]

theorem Silent.quiet {s s' : Session} (h : Silent s s') : Quiet s s' := by
  obtain ⟨hheap, hstore, -, -⟩ := base_parts h.base
  have hbatch : s'.base.batch = s.base.batch := by rw [h.base]
  have hnow : s'.base.now = s.base.now := by rw [h.base]
  refine ⟨h.agenda, h.log, hbatch, hnow, h.terminal, ?_, ?_, ?_⟩
  · rw [hstore]
  · rw [hstore]
  · intro f _
    rw [hheap]

/-- One step: a quiet change or an event. -/
inductive MatchStep (kb : KnowledgeBase) : Session → Session → Prop
  | quiet {s s'} : Quiet s s' → MatchStep kb s s'
  | event {s} (e : MatchEvent) : e.Enabled kb s → MatchStep kb s (e.apply kb s)

/-- **The rule of runs**: what the steps preserve holds after a run, where the log may be required to
be such that all its beginnings are. -/
theorem run_invariant {R : Session → Session → Prop} (hlog : ∀ {s s'}, R s s' → s.log <+: s'.log)
    {G : List (SessionData × AgendaEvent) → Prop}
    (hbegins : ∀ {log more}, G (log ++ more) → G log) {P : Session → Prop}
    (hstep : ∀ {s s'}, R s s' → G s'.log → P s → P s') {s s' : Session}
    (h : Relation.ReflTransGen R s s') (hguard : G s'.log) (hs : P s) : P s' := by
  induction h with
  | refl => exact hs
  | tail _ hlast ih =>
    obtain ⟨more, hmore⟩ := hlog hlast
    exact hstep hlast hguard (ih (hbegins (hmore ▸ hguard)))

/-- A step only adds to the log. -/
theorem MatchStep.log {kb : KnowledgeBase} {s s' : Session} (h : MatchStep kb s s') :
    s.log <+: s'.log := by
  cases h with
  | quiet hquiet => rw [hquiet.log]
  | event e _ =>
    rw [e.apply_log]
    exact List.prefix_append _ _

/-! ### Operations -/

/-- One session leads to another by some steps; ids are given out from one on. -/
def Leads (kb : KnowledgeBase) (s s' : Session) : Prop :=
  0 < s.workingMemory.nextId →
    0 < s'.workingMemory.nextId ∧ Relation.ReflTransGen (MatchStep kb) s s'

namespace Leads

variable {kb : KnowledgeBase} {s s' s'' : Session}
  {retract : TokenWME → Session → Session}

theorem refl (s : Session) : Leads kb s s :=
  fun hpos ↦ ⟨hpos, .refl⟩

theorem trans (h : Leads kb s s') (h' : Leads kb s' s'') : Leads kb s s'' := by
  intro hpos
  obtain ⟨hpos', hrun⟩ := h hpos
  obtain ⟨hpos'', hrun'⟩ := h' hpos'
  exact ⟨hpos'', hrun.trans hrun'⟩

theorem of_quiet (h : Quiet s s') : Leads kb s s' :=
  fun hpos ↦ ⟨hpos.trans_le h.nextId, .single (.quiet h)⟩

/-- An event that can take place is a step. -/
theorem of_event (e : MatchEvent) (henabled : e.Enabled kb s)
    (hnextId : (e.apply kb s).workingMemory.nextId = s.workingMemory.nextId) :
    Leads kb s (e.apply kb s) :=
  fun hpos ↦ ⟨hnextId ▸ hpos, .single (.event e henabled)⟩

/-- Operations in turn, one for each element of a list. -/
theorem foldl {α : Type} {f : Session → α → Session} (hf : ∀ s x, Leads kb s (f s x))
    (l : List α) (s : Session) : Leads kb s (l.foldl f s) := by
  induction l generalizing s with
  | nil => exact refl s
  | cons x l ih => exact (hf s x).trans (ih (f s x))

/-- A match begins. -/
theorem begins {n rule : ℕ} {bindings : Bindings} {w : TokenWME}
    (hkind : kb.network.kind n = .terminal rule bindings) (hw : w ∉ (s.mem n).terminal) :
    Leads kb s ((MatchEvent.begins n rule bindings w).apply kb s) := by
  have hbase : ((MatchEvent.begins n rule bindings w).apply kb s).base = s.base := by
    simp only [MatchEvent.apply, applyAutoFocus_base, addActivation_base]
    rfl
  refine of_event (.begins n rule bindings w) ⟨hkind, hw⟩ ?_
  rw [(base_parts hbase).2.1]

/-- A token comes to a terminal node. -/
theorem terminalLeft {n rule : ℕ} {bindings : Bindings}
    (hkind : kb.network.kind n = .terminal rule bindings)
    (hretract : ∀ w s, Leads kb s (retract w s)) (w : TokenWME) (type : PropagationType)
    (s : Session) : Leads kb s (terminalLeft kb retract n rule bindings w type s) := by
  cases type with
  | assert =>
    simp only [RulesForge.terminalLeft]
    split
    · exact refl s
    · next hw => exact begins hkind hw
  | retract =>
    simp only [RulesForge.terminalLeft, terminalRetract]
    split
    · next hw =>
      exact (of_event (.ends n rule bindings w) ⟨hkind, hw⟩ rfl).trans (hretract w _)
    · exact hretract w s
  | modify => exact refl s

/-- A batch of tokens comes to a terminal node. -/
theorem terminalLeftBatch {n rule : ℕ} {bindings : Bindings}
    (hkind : kb.network.kind n = .terminal rule bindings) (wmes : List TokenWME) (s : Session) :
    Leads kb s (terminalLeftBatch kb n rule bindings wmes s) := by
  have hbase : (RulesForge.terminalLeftBatch kb n rule bindings wmes s).base = s.base := by
    obtain ⟨hbase, -, -⟩ := batchMatches_silent kb n rule bindings wmes s
    rw [terminalLeftBatch_eq]
    split
    · exact hbase
    · exact (applyAutoFocus_base _).trans hbase
  refine of_event (.batch n rule bindings wmes) hkind ?_
  show (RulesForge.terminalLeftBatch kb n rule bindings wmes s).workingMemory.nextId = _
  rw [(base_parts hbase).2.1]

theorem carries
    (hretract : ∀ w s, Leads kb s (retract w s)) : Carries kb retract (Leads kb) where
  refl := refl
  trans := trans
  silent h := of_quiet h.quiet
  terminal w type s hkind := terminalLeft hkind hretract w type s

theorem updatePassing (n : ℕ) (f : List ℤ → List ℤ) (s : Session) :
    Leads kb s (updatePassing n f s) := by
  refine of_quiet ⟨rfl, rfl, rfl, rfl, fun m ↦ ?_, rfl, le_refl _, fun _ _ ↦ rfl⟩
  by_cases hm : m = n
  · subst hm
    simp [RulesForge.updatePassing]
  · simp [RulesForge.updatePassing, hm]

theorem activateEntryPoint
    (hretract : ∀ w s, Leads kb s (retract w s)) (fact : FactPtr) (type : PropagationType)
    (s : Session) : Leads kb s (activateEntryPoint kb retract fact type s) := by
  unfold RulesForge.activateEntryPoint
  split
  · exact refl s
  · exact (carries hretract).rightActivate updatePassing _ _ fact type s

/-- A batch of facts comes to its entry point. -/
theorem rightActivateBatch
    (hretract : ∀ w s, Leads kb s (retract w s)) (levels n : ℕ) (facts : List FactPtr)
    (s : Session) : Leads kb s (rightActivateBatch kb retract levels n facts s).2 :=
  (carries hretract).rightActivateBatch (fun wmes s hkind ↦ terminalLeftBatch hkind wmes s)
    updatePassing levels n facts s

theorem cleanWmeCache (hretract : ∀ w s, Leads kb s (retract w s)) (id : ℤ) (s : Session) :
    Leads kb s (cleanWmeCache kb retract id s) :=
  (foldl (fun s w ↦ hretract w s) _ s).trans (of_quiet (.of_eq rfl rfl rfl rfl))

theorem removeFact (hretract : ∀ w s, Leads kb s (retract w s)) (p : FactPtr) (s : Session) :
    Leads kb s (removeFact kb retract p s) :=
  (of_event (.leaves p) trivial rfl).trans
    ((activateEntryPoint hretract p .retract _).trans (cleanWmeCache hretract _ _))

theorem retractFact
    (hretract : ∀ w s, Leads kb s (retract w s)) (fact : FactPtr) (s : Session) :
    Leads kb s (retractFact kb retract fact s).1 := by
  unfold RulesForge.retractFact
  split
  · exact refl s
  · split
    · exact refl s
    · split
      · exact refl s
      · exact of_quiet (.of_eq rfl rfl rfl rfl)
      · exact removeFact hretract _ s

/-- The end of a match can end others: the facts it justified alone are retracted. -/
theorem logicalRetract (steps : ℕ) (w : TokenWME) (s : Session) :
    Leads kb s (logicalRetract kb steps w s) := by
  induction steps generalizing w s with
  | zero => exact refl s
  | succ steps ih =>
    have hquiet : Quiet s { s with tms := (s.tms.removeJustificationsByToken w).1 } :=
      .of_eq rfl rfl rfl rfl
    exact (of_quiet hquiet).trans (foldl (fun s fact ↦ retractFact ih fact s) _ _)

theorem writeFields (fact : FactPtr) (fields : List (String × ConstraintValue)) (s : Session) :
    Leads kb s (writeFields fact fields s) :=
  of_quiet ⟨rfl, rfl, rfl, rfl, fun _ ↦ rfl, rfl, le_refl _,
    fun f _ ↦ (writeFields_heap fact f fields s).1⟩

theorem writeType (fact : FactPtr) (name : String) (s : Session) :
    Leads kb s (writeType fact name s) :=
  of_quiet ⟨rfl, rfl, rfl, rfl, fun _ ↦ rfl, rfl, le_refl _,
    fun f _ ↦ (writeType_heap fact f name s).2.1⟩

/-- A fact gets its ids, and enters working memory. -/
theorem insertFact (fact : FactPtr) (s : Session) :
    Leads kb s (insertWorkingMemory fact (assignIds kb fact s)) := by
  intro hpos
  obtain ⟨hassigned, hne, -, -⟩ := assignIds_spec kb fact s hpos
  have hassign : Quiet s (assignIds kb fact s) :=
    ⟨rfl, rfl, rfl, rfl, fun _ ↦ rfl, rfl, hassigned.le, fun f hf ↦ hassigned.id hf⟩
  exact (of_quiet hassign).trans (of_event (.enters fact) hne rfl) hpos

/-- A fact gets its name and its ids, and enters working memory. -/
theorem enterFact (fact : FactPtr) (name : String) (s : Session) :
    Leads kb s (enterFact kb fact name s) :=
  (writeType fact name s).trans (insertFact fact _)

theorem addFact (steps : ℕ) (fact : FactPtr) (s : Session) :
    Leads kb s (addFact kb steps fact s).1 := by
  rcases addFact_cases kb steps fact s with hs' | ⟨name, -, -, hs' | hs'⟩
  · rw [hs']
    exact refl s
  · rw [hs']
    exact writeType fact name s
  · rw [hs']
    exact (enterFact fact name s).trans (activateEntryPoint (logicalRetract steps) fact _ _)

/-- The facts of a batch get their names, up to the first that is refused. -/
theorem checkFacts (facts : List FactPtr) (s : Session) : Leads kb s (checkFacts kb facts s).1 := by
  induction facts generalizing s with
  | nil => exact refl s
  | cons fact facts ih =>
    unfold RulesForge.checkFacts
    split
    · exact refl s
    · next name _ =>
      dsimp only
      split
      · exact writeType fact name s
      · exact (writeType fact name s).trans (ih _)

/-- The batches go to their entry points in turn. -/
theorem activateBatches (steps : ℕ) (groups : List (String × List FactPtr)) (s : Session) :
    Leads kb s (activateBatches kb steps groups s) := by
  refine foldl (fun s entry ↦ ?_) groups s
  dsimp only
  split
  · exact refl s
  · exact rightActivateBatch (logicalRetract steps) _ _ _ s

theorem addFacts (steps : ℕ) (facts : List FactPtr) (s : Session) :
    Leads kb s (addFacts kb steps facts s).1 := by
  unfold RulesForge.addFacts
  split
  · exact refl s
  · split
    · exact refl s
    · have hcheck : Leads kb s (RulesForge.checkFacts kb (facts.filter (· ≠ 0)) s).1 :=
        checkFacts (facts.filter (· ≠ 0)) s
      dsimp only
      split
      · next hrefused =>
        rw [hrefused] at hcheck
        exact hcheck
      · next s' haccepted =>
        rw [haccepted] at hcheck
        exact hcheck.trans ((foldl (fun s fact ↦ insertFact fact s) _ s').trans
          (activateBatches steps _ _))

theorem updateFact (steps : ℕ) (fact : FactPtr) (fields : List (String × ConstraintValue))
    (s : Session) : Leads kb s (updateFact kb steps fact fields s).1 := by
  unfold RulesForge.updateFact
  split
  · exact refl s
  · split
    · exact refl s
    · exact (writeFields fact fields s).trans (activateEntryPoint (logicalRetract steps) fact _ _)

theorem propagateModify (steps : ℕ) (fact : FactPtr) (hint : Option ModifiedFieldsHint)
    (s : Session) : Leads kb s (propagateModify kb steps fact hint s) := by
  unfold RulesForge.propagateModify
  split
  · exact refl s
  · have hbefore : Quiet s { s with currentModifiedFields := hint } := .of_eq rfl rfl rfl rfl
    exact (of_quiet hbefore).trans ((activateEntryPoint (logicalRetract steps) fact .modify _).trans
      (of_quiet (.of_eq rfl rfl rfl rfl)))

/-- What `insert_into` and `insert_event_into` have in common. -/
theorem insertThrough {enter : FactPtr → Session → Session}
    (henter : ∀ fact s, Leads kb s (enter fact (assignIds kb fact s))) (steps : ℕ)
    (streamName : String) (fact : FactPtr) (s : Session) :
    Leads kb s (insertThrough kb enter steps streamName fact s).1 := by
  unfold RulesForge.insertThrough
  split
  · exact refl s
  · split
    · exact refl s
    · split
      · exact refl s
      · next name _ =>
        dsimp only
        split
        · exact writeType fact name s
        · split
          · exact writeType fact name s
          · next entry _ =>
            exact (writeType fact name s).trans ((henter fact _).trans
              ((carries (logicalRetract steps)).rightActivate updatePassing _ entry fact _ _))

theorem insertInto (steps : ℕ) (streamName : String) (fact : FactPtr) (s : Session) :
    Leads kb s (insertInto kb steps streamName fact s).1 :=
  insertThrough insertFact steps streamName fact s

theorem insertEventInto (steps : ℕ) (streamName : String) (fact : FactPtr) (s : Session) :
    Leads kb s (insertEventInto kb steps streamName fact s).1 := by
  refine insertThrough (fun fact s ↦ ?_) steps streamName fact s
  set entered := insertWorkingMemory fact (assignIds kb fact s) with hentered
  have hquiet : Quiet entered { entered with transaction := (assignIds kb fact s).transaction } :=
    .of_eq rfl rfl rfl rfl
  exact (insertFact fact s).trans (of_quiet hquiet)

theorem retractFrom (steps : ℕ) (streamName : String) (fact : FactPtr) (s : Session) :
    Leads kb s (retractFrom kb steps streamName fact s).1 := by
  unfold RulesForge.retractFrom
  split
  · exact refl s
  · split
    · exact refl s
    · split
      · exact refl s
      · next p _ =>
        split
        · exact refl s
        · next entry _ =>
          exact (of_event (.leaves p) trivial rfl).trans
            ((carries (logicalRetract steps)).rightActivate updatePassing _ entry p .retract _)

end Leads

/-! ### Runs of a session -/

/-- The operations of a client on facts, by themselves or as a batch, at the entry points of their
types or at a named one. A fact is changed by `update_fact`, or in place, with or without
`propagate_modify`. -/
inductive SessionOp where
  | add (fact : FactPtr)
  | addFacts (facts : List FactPtr)
  | insertInto (streamName : String) (fact : FactPtr)
  | insertEventInto (streamName : String) (fact : FactPtr)
  | retract (fact : FactPtr)
  | retractFrom (streamName : String) (fact : FactPtr)
  | update (fact : FactPtr) (fields : List (String × ConstraintValue))
  | modify (fact : FactPtr) (fields : List (String × ConstraintValue))
      (hint : Option ModifiedFieldsHint)
  | write (fact : FactPtr) (fields : List (String × ConstraintValue))

/-- The session after an operation. -/
def SessionOp.run (kb : KnowledgeBase) (steps : ℕ) : SessionOp → Session → Session
  | .add fact, s => (addFact kb steps fact s).1
  | .addFacts facts, s => (RulesForge.addFacts kb steps facts s).1
  | .insertInto streamName fact, s => (RulesForge.insertInto kb steps streamName fact s).1
  | .insertEventInto streamName fact, s =>
    (RulesForge.insertEventInto kb steps streamName fact s).1
  | .retract fact, s => (retractFact kb (logicalRetract kb steps) fact s).1
  | .retractFrom streamName fact, s => (RulesForge.retractFrom kb steps streamName fact s).1
  | .update fact fields, s => (updateFact kb steps fact fields s).1
  | .modify fact fields hint, s => propagateModify kb steps fact hint (writeFields fact fields s)
  | .write fact fields, s => writeFields fact fields s

/-- The session after a sequence of operations. -/
def runSession (kb : KnowledgeBase) (steps : ℕ) (ops : List SessionOp) (s : Session) : Session :=
  ops.foldl (fun s op ↦ op.run kb steps s) s

/-- **Every operation leads from one session to the next.** -/
theorem SessionOp.leads (kb : KnowledgeBase) (steps : ℕ) (op : SessionOp) (s : Session) :
    Leads kb s (op.run kb steps s) := by
  cases op with
  | add fact => exact .addFact steps fact s
  | addFacts facts => exact .addFacts steps facts s
  | insertInto streamName fact => exact .insertInto steps streamName fact s
  | insertEventInto streamName fact => exact .insertEventInto steps streamName fact s
  | retract fact => exact .retractFact (.logicalRetract steps) fact s
  | retractFrom streamName fact => exact .retractFrom steps streamName fact s
  | update fact fields => exact .updateFact steps fact fields s
  | modify fact fields hint =>
    exact (Leads.writeFields fact fields s).trans (.propagateModify steps fact hint _)
  | write fact fields => exact .writeFields fact fields s

theorem newSession_leads (kb : KnowledgeBase) (steps : ℕ) (heap : Heap) :
    Leads kb (startSession kb heap) (newSession kb steps heap) :=
  .foldl (fun s n ↦ (Leads.carries (.logicalRetract steps)).leftActivate _ n _ _ s) _ _

/-- **Every run of a session consists of such steps**, after its start. -/
theorem runSession_steps (kb : KnowledgeBase) (steps : ℕ) (heap : Heap) (ops : List SessionOp) :
    Relation.ReflTransGen (MatchStep kb) (startSession kb heap)
      (runSession kb steps ops (newSession kb steps heap)) := by
  have hpos : 0 < (startSession kb heap).workingMemory.nextId := by
    rw [(base_parts (startSession_parts kb heap).1).2.1]
    exact one_pos
  have hops : Leads kb (newSession kb steps heap)
      (runSession kb steps ops (newSession kb steps heap)) :=
    .foldl (fun s op ↦ op.leads kb steps s) ops _
  exact ((newSession_leads kb steps heap).trans hops hpos).2

end RulesForge
