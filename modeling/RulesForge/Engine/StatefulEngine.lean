import RulesForge.Engine.ContinuousHistory
import RulesForge.Engine.EntryPoints

/-!
# The rule session of a continuous session

The operations of `StatefulSession` as a `RuleEngine`. What the actions of rules do is a
parameter, as is the address that a new fact gets.

The state carries, beside the session, what its run is judged by: the entry point of each fact,
the facts that have been in working memory, and whether every step so far has met its condition
(`clean`). No operation looks at these. A session whose run is clean is one of those of
`StreamReachable`, so its memories are exact.
-/

namespace RulesForge

open EStateM

/-! ### The operations -/

/-- A session and its history: `clean` says that every step so far has met the condition of
`StreamReachable`. -/
structure TracedSession where
  session : Session
  eventTimeWatermarkMs : Option Millis := none
  source : FactPtr → Option String := fun _ ↦ none
  known : Set FactPtr := ∅
  clean : Prop := True

/-- The exception of an operation. The messages about types and schemas are those of the
validator. -/
def SessionError.failure (operation streamName factType : String) : SessionError → Failure
  | .sessionInconsistent => .runtimeError
      ("Session is inconsistent due to a previous failed RHS transaction. Call reset() before " ++
        operation ++ ".")
  | .ambiguousType => .runtimeError "ambiguous type"
  | .schemaValidation => .runtimeError "schema validation"
  | .unknownEntryPoint => .invalidArgument ("Unknown entry point '" ++ streamName ++ "'")
  | .typeNotAccepted => .invalidArgument
      ("Entry point '" ++ streamName ++ "' does not accept fact type '" ++ factType ++ "'")

variable (kb : KnowledgeBase) (steps : ℕ) (allocate : Session → FactPtr)
  (fire : ℤ → EStateM Failure TracedSession ℤ)

/-- What is asked of a new event: a new address that no fact of working memory refers to, and
plain values where constraints read it. -/
structure CleanEvent (p : FactPtr) (fact : Fact) (w : TracedSession) : Prop where
  address : p ≠ 0
  new : p ∉ w.known
  id : fact.id = 0
  reads : ∀ f ∈ w.session.facts, SameReads w.session.heap (placeFact p fact w.session).heap f
  plain : PlainReads kb.network (placeFact p fact w.session).heap p

/-- The session after `insert_event_into` of a new fact. -/
def TracedSession.insertEvent (streamName : String) (p : FactPtr) (fact : Fact)
    (w : TracedSession) : TracedSession :=
  let session := (insertEventInto kb steps streamName p (placeFact p fact w.session)).1
  { w with
    session := session
    source := Function.update w.source p (some streamName)
    known := w.known ∪ session.facts
    clean := w.clean ∧ CleanEvent kb p fact w }

/-- `advance_event_time` of a network without windows. -/
def TracedSession.advanceEventTime (watermarkMs : Millis) : EStateM Failure TracedSession ℕ :=
  fun w ↦
    if !w.session.isConsistent then
      .error (SessionError.failure "advancing event time" "" "" .sessionInconsistent) w
    else if w.eventTimeWatermarkMs.any fun v ↦ watermarkMs.1 < v.1 then
      .error (.invalidArgument "Event-time watermark cannot move backwards") w
    else .ok 0 { w with eventTimeWatermarkMs := some watermarkMs }

/-- `StatefulSession`, with an allocator of facts and the actions of its rules. -/
def statefulEngine : RuleEngine TracedSession where
  createSession w := .ok () { session := newSession kb steps w.session.heap }
  isConsistent w := w.session.isConsistent
  nextFactId w := w.session.workingMemory.nextId
  pendingActivationCount w := w.session.agenda.agendaMap.length
  factsSnapshot w := w.session.workingMemory.facts.map fun entry ↦ w.session.heap entry.2
  validateEntryPointRoute _ streamName factType :=
    match kb.canonicalizeTypeName factType with
    | none => .error (SessionError.failure "" streamName factType .ambiguousType)
    | some name =>
      match requireEntryPointRoute kb streamName name with
      | .ok _ => .ok ()
      | .error e => .error (e.failure "" streamName name)
  insertEventInto streamName fact _ := fun w ↦
    let p := allocate w.session
    let w' := w.insertEvent kb steps streamName p fact
    match (insertEventInto kb steps streamName p (placeFact p fact w.session)).2 with
    | none => .ok p w'
    | some e => .error (e.failure "adding events" streamName fact.type) w'
  advanceEventTime := TracedSession.advanceEventTime
  retractFrom streamName fact := fun w ↦
    let r := retractFrom kb steps streamName fact w.session
    let w' := { w with
      session := r.1
      clean := w.clean ∧ ∀ p, w.session.workingMemory.get (w.session.heap fact).id = some p →
        w.source p = some streamName }
    match r.2 with
    | none => .ok () w'
    | some e => .error (e.failure "retracting facts" streamName (w.session.heap fact).type) w'
  fireAllRulesFailFast := fire

/-! ### Clean runs -/

/-- The session of a clean run is reachable. -/
def TracedSession.Reachable (w : TracedSession) : Prop :=
  StreamReachable kb steps w.source w.known w.session

/-- One session comes after another in a clean run: no fact changes its entry point, and no fact
that has left working memory comes back. -/
structure Continues (w w' : TracedSession) : Prop where
  clean : w.clean
  reachable : w.Reachable kb steps → w'.Reachable kb steps
  known : w.known ⊆ w'.known
  source : ∀ p ∈ w.known, w'.source p = w.source p
  facts : w.Reachable kb steps → ∀ p ∈ w.known, p ∈ w'.session.facts → p ∈ w.session.facts

variable {kb steps allocate fire} {w w' w'' : TracedSession}

theorem Continues.refl (h : w.clean) : Continues kb steps w w :=
  ⟨h, id, subset_rfl, fun _ _ ↦ rfl, fun _ _ _ hp ↦ hp⟩

theorem Continues.trans (h : Continues kb steps w w') (h' : Continues kb steps w' w'') :
    Continues kb steps w w'' where
  clean := h.clean
  reachable hw := h'.reachable (h.reachable hw)
  known := h.known.trans h'.known
  source p hp := (h'.source p (h.known hp)).trans (h.source p hp)
  facts hw p hp hp'' := h.facts hw p hp (h'.facts (h.reachable hw) p (h.known hp) hp'')

/-! ### What the operations do -/

section Operations

variable (hkb : kb.Sound)
include hkb

/-- An event that has been inserted is known, with its entry point. -/
theorem insertEvent_continues {streamName : String} {p : FactPtr} {fact : Fact}
    (hclean : (w.insertEvent kb steps streamName p fact).clean) :
    let w' := w.insertEvent kb steps streamName p fact
    Continues kb steps w w' ∧ w'.source p = some streamName ∧
      (w.Reachable kb steps →
        (insertEventInto kb steps streamName p (placeFact p fact w.session)).2 = none →
        p ∈ w'.known) := by
  obtain ⟨hclean, hevent⟩ := hclean
  have hid : ((placeFact p fact w.session).heap p).id = 0 := by
    simp [placeFact, hevent.id]
  have hcreate : w.Reachable kb steps →
      StreamReachable kb steps w.source w.known (placeFact p fact w.session) :=
    fun hw ↦ StreamReachable.create fact hw hevent.new hevent.reads
  have hfacts : w.Reachable kb steps → p ∉ (placeFact p fact w.session).facts :=
    fun hw hp ↦ hevent.new ((hw.inv hkb).known_facts hp)
  have hinsert : w.Reachable kb steps → ∀ r, r = insertEventInto kb steps streamName p
      (placeFact p fact w.session) → r.1.facts ⊆ insert p w.session.facts ∧
        (r.2 = none → p ∈ r.1.facts) := by
    rintro hw _ rfl
    obtain ⟨-, hsub, hmem⟩ := ((hcreate hw).inv hkb).insertThrough steps hkb
      (fun _ _ ↦ ⟨_, rfl⟩) (update_source (hfacts hw) (some streamName))
      (Function.update_self _ _ _) (hfacts hw) (.inl hid) hevent.plain
    exact ⟨hsub, hmem hevent.address⟩
  refine ⟨⟨hclean, fun hw ↦ ?_, Set.subset_union_left, fun q hq ↦ ?_, fun hw q hq hq' ↦ ?_⟩,
    Function.update_self _ _ _, fun hw hok ↦ ?_⟩
  · exact .insertEventInto streamName (hcreate hw) (hfacts hw) (.inl hid) hevent.plain
  · exact Function.update_of_ne (ne_of_mem_of_not_mem hq hevent.new) _ _
  · exact ((hinsert hw _ rfl).1 hq').resolve_left (ne_of_mem_of_not_mem hq hevent.new)
  · exact .inr ((hinsert hw _ rfl).2 hok)

theorem statefulEngine_insertEventInto_ends (streamName : String) (fact : Fact) (time : Millis)
    (w : TracedSession) :
    ((statefulEngine kb steps allocate fire).insertEventInto streamName fact time).Ends w
      (fun p w' ↦ w'.clean → Continues kb steps w w' ∧ w'.source p = some streamName ∧
        (w.Reachable kb steps → p ∈ w'.known)) fun _ _ ↦ True := by
  unfold Ends statefulEngine
  dsimp only
  cases herror : (insertEventInto kb steps streamName (allocate w.session)
      (placeFact (allocate w.session) fact w.session)).2 with
  | some e => exact trivial
  | none =>
    intro hclean
    obtain ⟨hcontinues, hsource, hknown⟩ := insertEvent_continues hkb hclean
    exact ⟨hcontinues, hsource, fun hw ↦ hknown hw herror⟩

/-- A known fact that is retracted from its entry point leaves working memory. -/
theorem statefulEngine_retractFrom_ends (streamName : String) (fact : FactPtr)
    (w : TracedSession) :
    ((statefulEngine kb steps allocate fire).retractFrom streamName fact).Ends w
      (fun _ w' ↦ w'.clean → Continues kb steps w w' ∧
        (w.Reachable kb steps → fact ∈ w.known → fact ∉ w'.session.facts)) fun _ _ ↦ True := by
  unfold Ends statefulEngine
  dsimp only
  cases herror : (retractFrom kb steps streamName fact w.session).2 with
  | some e => exact trivial
  | none =>
    rintro ⟨hclean, hstream⟩
    have hretract := fun hw : w.Reachable kb steps ↦
      (hw.inv hkb).retractFrom steps hkb streamName fact hstream
    refine ⟨⟨hclean, fun hw ↦ .retractFrom streamName fact hw hstream, subset_rfl, fun _ _ ↦ rfl,
      fun hw p _ hp ↦ (hretract hw).2.1 hp⟩, fun hw hfact ↦ (hretract hw).2.2 hfact herror⟩

end Operations

theorem advanceEventTime_ends (watermarkMs : Millis) (w : TracedSession) :
    (TracedSession.advanceEventTime watermarkMs).Ends w
      (fun _ w' ↦ w'.clean → Continues kb steps w w') fun _ _ ↦ True := by
  unfold Ends TracedSession.advanceEventTime
  by_cases hconsistent : (!w.session.isConsistent) = true
  · simp only [if_pos hconsistent]
  · by_cases hback : (w.eventTimeWatermarkMs.any fun v ↦ watermarkMs.1 < v.1) = true
    · simp only [if_neg hconsistent, if_pos hback]
    · simp only [if_neg hconsistent, if_neg hback]
      exact fun hclean ↦ ⟨hclean, id, subset_rfl, fun _ _ ↦ rfl, fun _ _ _ hp ↦ hp⟩

end RulesForge
