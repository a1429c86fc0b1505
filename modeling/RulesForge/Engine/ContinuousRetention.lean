import RulesForge.Engine.StatefulEngine

/-!
# Retention

After an advance of the watermark the active events are the accepted ones that are younger than
their retention, in the order of their acceptance, the deduplication entries are the accepted ids
that are younger than theirs, and the fact of every event that went is neither in working memory
nor in any memory of the network (`retention_exact`).

The boundary of retention is a difference that saturates, and an event at the boundary is
dropped. An event with the least time is therefore dropped at a watermark whose boundary
saturates, young as it is (`leastTime_dropped`).
-/

namespace RulesForge

open EStateM

variable {config : ContinuousSessionConfig}

/-! ### Events younger than a retention -/

/-- The age of an event at a watermark is below a retention. -/
def young (retentionMs : ℤ) (watermarkMs eventTimeMs : Millis) : Bool :=
  decide (watermarkMs.1 - eventTimeMs.1 < retentionMs)

/-- The boundary of a retention does not saturate where an event with the least time is held. -/
def Unsaturated (retentionMs : ℤ) (watermarkMs eventTimeMs : Millis) : Prop :=
  eventTimeMs.1 = int64Min → int64Min + retentionMs ≤ watermarkMs.1

theorem young_mono {retentionMs : ℤ} {v w t : Millis} (hle : v.1 ≤ w.1)
    (h : young retentionMs w t = true) : young retentionMs v t = true := by
  unfold young at h ⊢
  rw [decide_eq_true_eq] at h ⊢
  omega

theorem young_of_not_expired {retentionMs : ℤ} {w t : Millis}
    (h : Ledger.expiredAt retentionMs w t = false) : young retentionMs w t = true := by
  have hle := t.2.1
  unfold Ledger.expiredAt checkedSubtract at h
  unfold young
  rw [decide_eq_false_iff_not] at h
  rw [decide_eq_true_eq]
  split at h <;> omega

theorem not_expired_of_young {retentionMs : ℤ} {w t : Millis} (hleast : Unsaturated retentionMs w t)
    (h : young retentionMs w t = true) : Ledger.expiredAt retentionMs w t = false := by
  have hle := t.2.1
  unfold young at h
  unfold Ledger.expiredAt checkedSubtract
  rw [decide_eq_true_eq] at h
  rw [decide_eq_false_iff_not]
  split
  · intro hexpired
    have := hleast (le_antisymm hexpired hle)
    omega
  · omega

section Keeps

variable {α : Type} {retentionMs : ℤ} {time : α → Millis} {watermark : Option Millis}
  {held accepted : List α}

/-- From the watermark on, those that are young among the accepted are those that are young among
the ones held. -/
def Keeps (retentionMs : ℤ) (time : α → Millis) (watermark : Option Millis)
    (held accepted : List α) : Prop :=
  ∀ w, (∀ v ∈ watermark, v.1 ≤ w.1) →
    held.filter (fun e ↦ young retentionMs w (time e)) =
      accepted.filter fun e ↦ young retentionMs w (time e)

theorem Keeps.append (h : Keeps retentionMs time watermark held accepted) (events : List α) :
    Keeps retentionMs time watermark (held ++ events) (accepted ++ events) := by
  intro w hw
  rw [List.filter_append, List.filter_append, h w hw]

/-- What is dropped at a watermark is never young again. -/
theorem Keeps.advance (h : Keeps retentionMs time watermark held accepted) {w : Millis}
    (hforward : ∀ v ∈ watermark, v.1 ≤ w.1)
    (hleast : ∀ e ∈ accepted, Unsaturated retentionMs w (time e)) :
    Keeps retentionMs time (some w)
      (held.filter fun e ↦ !Ledger.expiredAt retentionMs w (time e)) accepted := by
  intro w' hw'
  have hle : w.1 ≤ w'.1 := hw' w rfl
  have hheld := h w' fun v hv ↦ (hforward v hv).trans hle
  rw [List.filter_filter, ← hheld]
  refine List.filter_congr fun e he ↦ ?_
  cases hyoung : young retentionMs w' (time e) with
  | false => rfl
  | true =>
    have hmem : e ∈ accepted := by
      have hfilter : e ∈ held.filter fun e ↦ young retentionMs w' (time e) :=
        List.mem_filter.mpr ⟨he, hyoung⟩
      rw [hheld] at hfilter
      exact (List.mem_filter.mp hfilter).1
    simp [not_expired_of_young (hleast e hmem) (young_mono hle hyoung)]

/-- Right after an advance only the young ones are held. -/
theorem Keeps.exact (h : Keeps retentionMs time watermark held accepted) {w : Millis}
    (hforward : ∀ v ∈ watermark, v.1 ≤ w.1)
    (hleast : ∀ e ∈ accepted, Unsaturated retentionMs w (time e)) :
    held.filter (fun e ↦ !Ledger.expiredAt retentionMs w (time e)) =
      accepted.filter fun e ↦ young retentionMs w (time e) := by
  have hyoung : ∀ e ∈ held.filter (fun e ↦ !Ledger.expiredAt retentionMs w (time e)),
      young retentionMs w (time e) = true := by
    intro e he
    have hkept := (List.mem_filter.mp he).2
    exact young_of_not_expired (by simpa using hkept)
  rw [← h.advance hforward hleast w (fun v hv ↦ by cases hv; exact le_rfl),
    List.filter_eq_self.mpr hyoung]

end Keeps

/-! ### Histories -/

/-- The events accepted in a run, in order. -/
def acceptedRecords : List (Call × Bool) → List EventRecord
  | [] => []
  | (.pushBatch events, true) :: trace =>
    acceptedRecords trace ++ events.map fun e ↦ ⟨e.eventId, e.entryPoint, e.eventTimeMs⟩
  | _ :: trace => acceptedRecords trace

/-- At no advance of a run has an event with the least time been accepted while the boundary of a
retention saturates. -/
def NeverSaturated (config : ContinuousSessionConfig) : List (Call × Bool) → Prop
  | [] => True
  | (.advanceWatermark w, true) :: trace => NeverSaturated config trace ∧
    ∀ entry ∈ acceptedEvents trace, Unsaturated config.eventRetentionMs w entry.2 ∧
      Unsaturated config.dedupRetentionMs w entry.2
  | _ :: trace => NeverSaturated config trace

theorem acceptedEvents_eq (trace : List (Call × Bool)) :
    acceptedEvents trace = (acceptedRecords trace).map fun e ↦ (e.eventId, e.eventTimeMs) := by
  induction trace with
  | nil => rfl
  | cons entry trace ih =>
    obtain ⟨call, ok⟩ := entry
    cases ok with
    | false => cases call <;> exact ih
    | true =>
      cases call with
      | pushBatch events => simp [acceptedEvents, acceptedRecords, ih]
      | _ => exact ih

/-- The ledger of a history keeps what is young. -/
theorem History.keeps {trace : List (Call × Bool)} {l : Ledger} (h : History config trace l)
    (hleast : NeverSaturated config trace) :
    Keeps config.eventRetentionMs EventRecord.eventTimeMs l.watermarkMs l.active
        (acceptedRecords trace) ∧
      Keeps config.dedupRetentionMs Prod.snd l.watermarkMs l.dedup (acceptedEvents trace) := by
  induction h with
  | start => exact ⟨fun _ _ ↦ rfl, fun _ _ ↦ rfl⟩
  | pushBatch _ _ _ _ ih =>
    obtain ⟨hactive, hdedup⟩ := ih hleast
    exact ⟨hactive.append _, hdedup.append _⟩
  | @advanceWatermark trace l w _ hforward ih =>
    obtain ⟨hactive, hdedup⟩ := ih hleast.1
    refine ⟨hactive.advance hforward fun e he ↦ ?_,
      hdedup.advance hforward fun entry hentry ↦ (hleast.2 entry hentry).2⟩
    have hentry : (e.eventId, e.eventTimeMs) ∈ acceptedEvents trace := by
      rw [acceptedEvents_eq]
      exact List.mem_map_of_mem he
    exact (hleast.2 _ hentry).1
  | drain _ ih => exact ih hleast
  | acknowledge _ ih => exact ih hleast
  | @failed trace l call _ ih => cases call <;> exact ih hleast

/-! ### The facts of events -/

section Facts

variable {kb : KnowledgeBase} {steps : ℕ} {allocate : Session → FactPtr}
  {fire : ℤ → EStateM Failure TracedSession ℤ}

/-- The facts of the active events have come through their entry points. -/
structure EventsHeld (kb : KnowledgeBase) (steps : ℕ) (s : ReplayedState TracedSession) :
    Prop where
  reachable : s.session.Reachable kb steps
  known : ∀ e ∈ s.activeEvents, e.fact ∈ s.session.known
  source : ∀ e ∈ s.activeEvents, s.session.source e.fact = some e.entryPoint

/-- What firing is allowed to do in a clean run. -/
def FiresClean (kb : KnowledgeBase) (steps : ℕ) (fire : ℤ → EStateM Failure TracedSession ℤ) :
    Prop :=
  ∀ {maxRules w fired w'}, fire maxRules w = .ok fired w' → w'.clean → Continues kb steps w w'

/-- A clean operation keeps the facts of the events, and the facts of those that go have left
working memory. -/
structure Retains (kb : KnowledgeBase) (steps : ℕ) (s s' : ReplayedState TracedSession) :
    Prop where
  clean : s.session.clean
  held : EventsHeld kb steps s → EventsHeld kb steps s'
  known : s.session.known ⊆ s'.session.known
  facts : EventsHeld kb steps s → ∀ p ∈ s.session.known, p ∈ s'.session.session.facts →
    p ∈ s.session.session.facts
  gone : EventsHeld kb steps s → ∀ e ∈ s.activeEvents, e ∉ s'.activeEvents →
    e.fact ∉ s'.session.session.facts

theorem Retains.refl {s : ReplayedState TracedSession} (h : s.session.clean) :
    Retains kb steps s s :=
  ⟨h, id, subset_rfl, fun _ _ _ hp ↦ hp, fun _ _ he hgone ↦ absurd he hgone⟩

theorem Retains.trans {s s' s'' : ReplayedState TracedSession} (h : Retains kb steps s s')
    (h' : Retains kb steps s' s'') : Retains kb steps s s'' where
  clean := h.clean
  held hs := h'.held (h.held hs)
  known := h.known.trans h'.known
  facts hs p hp hp'' := h.facts hs p hp (h'.facts (h.held hs) p (h.known hp) hp'')
  gone hs e he hgone := by
    by_cases he' : e ∈ s'.activeEvents
    · exact h'.gone (h.held hs) e he' hgone
    · exact fun hp'' ↦ h.gone hs e he he'
        (h'.facts (h.held hs) e.fact (h.known (hs.known e he)) hp'')

/-- The session goes on, and some of the active events go whose facts have left. -/
theorem Continues.retains {s s' : ReplayedState TracedSession}
    (hw : Continues kb steps s.session s'.session)
    (hactive : ∀ e ∈ s'.activeEvents, e ∈ s.activeEvents)
    (hgone : EventsHeld kb steps s → ∀ e ∈ s.activeEvents, e ∉ s'.activeEvents →
      e.fact ∉ s'.session.session.facts) : Retains kb steps s s' where
  clean := hw.clean
  held hs :=
    { reachable := hw.reachable hs.reachable
      known := fun e he ↦ hw.known (hs.known e (hactive e he))
      source := fun e he ↦
        (hw.source e.fact (hs.known e (hactive e he))).trans (hs.source e (hactive e he)) }
  known := hw.known
  facts hs := hw.facts hs.reachable
  gone := hgone

/-! ### Operations on the facts of events -/

section Operations

variable (hkb : kb.Sound)
include hkb

theorem applyEvent_retains (event : EventEnvelope) (s : ReplayedState TracedSession) :
    (applyEvent (statefulEngine kb steps allocate fire) event).Ends s
      (fun _ s' ↦ s'.session.clean → Retains kb steps s s') fun _ _ ↦ True := by
  unfold applyEvent
  cases event.fact with
  | none => exact .pure fun hclean ↦ .refl hclean
  | some fact =>
    refine .bind ((onSession_ends _ s).mono ?_ fun _ _ _ ↦ trivial)
    rintro p _ ⟨w, hinsert, rfl⟩
    refine .modify fun hclean ↦ ?_
    obtain ⟨hcontinues, hsource, hknown⟩ :=
      (statefulEngine_insertEventInto_ends hkb _ _ _ _).of_ok hinsert hclean
    have hrest : Retains kb steps s { s with session := w } :=
      hcontinues.retains (fun _ he ↦ he) fun _ _ he hgone ↦ absurd he hgone
    refine ⟨hrest.clean, fun hs ↦ ?_, hrest.known, hrest.facts,
      fun hs e he hgone ↦ absurd (List.mem_append_left _ he) hgone⟩
    have hheld := hrest.held hs
    refine ⟨hheld.reachable, fun e he ↦ ?_, fun e he ↦ ?_⟩
    · rcases List.mem_append.mp he with he | he
      · exact hheld.known e he
      · rw [List.mem_singleton.mp he]
        exact hknown hs.reachable
    · rcases List.mem_append.mp he with he | he
      · exact hheld.source e he
      · rw [List.mem_singleton.mp he]
        exact hsource

theorem applyWatermark_retains (v : Millis) (s : ReplayedState TracedSession) :
    (applyWatermark (statefulEngine kb steps allocate fire) config v).Ends s
      (fun _ s' ↦ s'.session.clean → Retains kb steps s s') fun _ _ ↦ True := by
  -- The events that have been read and are expired have left working memory.
  let P (it : ℕ) (w : TracedSession) : Prop := w.clean → Continues kb steps s.session w ∧
    (EventsHeld kb steps s → ∀ i < it, ∀ e, s.activeEvents[i]? = some e →
      Ledger.expiredAt config.eventRetentionMs v e.eventTimeMs = true → e.fact ∉ w.session.facts)
  have hadvance : ((statefulEngine kb steps allocate fire).advanceEventTime v).Ends s.session
      (fun _ ↦ P 0) fun _ _ ↦ True :=
    (advanceEventTime_ends v s.session).mono
      (fun _ w hw hclean ↦ ⟨hw hclean, fun _ i hi ↦ absurd hi (Nat.not_lt_zero i)⟩) fun _ _ h ↦ h
  have hretract : ∀ {it e w}, s.activeEvents[it]? = some e →
      Ledger.expiredAt config.eventRetentionMs v e.eventTimeMs = true → P it w →
      ((statefulEngine kb steps allocate fire).retractFrom e.entryPoint e.fact).Ends w
        (fun _ ↦ P (it + 1)) fun _ _ ↦ True := by
    intro it e w he _ hP
    refine (statefulEngine_retractFrom_ends hkb e.entryPoint e.fact w).mono
      (fun _ w' hw' hclean ↦ ?_) fun _ _ h ↦ h
    obtain ⟨hcontinues, hleft⟩ := hw' hclean
    obtain ⟨hbefore, hgone⟩ := hP hcontinues.clean
    refine ⟨hbefore.trans hcontinues, fun hs i hi e' he' hexpired ↦ ?_⟩
    have hknown : ∀ {e}, e ∈ s.activeEvents → e.fact ∈ w.known :=
      fun he ↦ hbefore.known (hs.known _ he)
    rcases Nat.lt_succ_iff_lt_or_eq.mp hi with hi | rfl
    · exact fun hp ↦ hgone hs i hi e' he' hexpired (hcontinues.facts
        (hbefore.reachable hs.reachable) e'.fact (hknown (List.mem_of_getElem? he')) hp)
    · cases he.symm.trans he'
      exact hleft (hbefore.reachable hs.reachable) (hknown (List.mem_of_getElem? he))
  have hstay : ∀ {it e w}, s.activeEvents[it]? = some e →
      Ledger.expiredAt config.eventRetentionMs v e.eventTimeMs = false → P it w → P (it + 1) w := by
    intro it e w he hkept hP hclean
    obtain ⟨hbefore, hgone⟩ := hP hclean
    refine ⟨hbefore, fun hs i hi e' he' hexpired ↦ ?_⟩
    rcases Nat.lt_succ_iff_lt_or_eq.mp hi with hi | rfl
    · exact hgone hs i hi e' he' hexpired
    · cases he.symm.trans he'
      rw [hkept] at hexpired
      cases hexpired
  refine (applyWatermark_ends v s hadvance hretract hstay).mono ?_ fun _ _ _ ↦ trivial
  rintro _ s' ⟨-, hactive, hP⟩ hclean
  obtain ⟨hcontinues, hgone⟩ := hP hclean
  refine hcontinues.retains (fun e he ↦ ?_) fun hs e he hgone' ↦ ?_
  · rw [hactive] at he
    exact (List.mem_filter.mp he).1
  · obtain ⟨i, hi, rfl⟩ := List.mem_iff_getElem.mp he
    refine hgone hs i hi _ (List.getElem?_eq_getElem hi) ?_
    rw [hactive, List.mem_filter, not_and] at hgone'
    simpa using hgone' he

/-- **A clean operation retains** the facts of the events that stay. -/
theorem applyOperation_retains (hfire : FiresClean kb steps fire) (operation : Operation)
    (s : ReplayedState TracedSession) :
    (applyOperation (statefulEngine kb steps allocate fire) config operation).Ends s
      (fun _ s' ↦ s'.session.clean → Retains kb steps s s') fun _ _ ↦ True := by
  have hfires : ∀ (s₁ : ReplayedState TracedSession), (s₁.session.clean → Retains kb steps s s₁) →
      ∀ expired : ℕ, (do
        let rulesFired ← onSession (fire config.maxRulesPerStep)
        return (rulesFired, expired)).Ends s₁
        (fun _ s' ↦ s'.session.clean → Retains kb steps s s') fun _ _ ↦ True := by
    intro s₁ hs₁ expired
    refine .bind ((onSession_ends _ s₁).mono ?_ fun _ _ _ ↦ trivial)
    rintro _ _ ⟨w, hw, rfl⟩
    refine .pure fun hclean ↦ ?_
    have hcontinues := hfire hw hclean
    have hafter : Retains kb steps s₁ { s₁ with session := w } :=
      hcontinues.retains (fun _ he ↦ he) fun _ _ he hgone ↦ absurd he hgone
    exact (hs₁ hcontinues.clean).trans hafter
  unfold applyOperation
  cases operation with
  | events events =>
    refine .bind (Ends.mono (Ends.forM (P := fun _ s₁ ↦ s₁.session.clean → Retains kb steps s s₁)
      (fun hclean ↦ .refl hclean) ?_) (fun _ s₁ hs₁ ↦ .bind (.pure (hfires s₁ hs₁ 0)))
      fun _ _ h ↦ h)
    intro event _ s₁ hs₁
    refine (applyEvent_retains hkb event s₁).mono (fun _ s₂ hs₂ hclean ↦ ?_) fun _ _ h ↦ h
    exact (hs₁ (hs₂ hclean).clean).trans (hs₂ hclean)
  | watermark v =>
    exact .bind ((applyWatermark_retains hkb v s).mono (fun expired s₁ hs₁ ↦ hfires s₁ hs₁ expired)
      fun _ _ h ↦ h)
  | drain => exact .bind (.pure (hfires s (fun hclean ↦ .refl hclean) 0))

/-- The events of a session that a clean replay has built are held. -/
theorem Rebuilt.eventsHeld (hfire : FiresClean kb steps fire) {operations : List Operation}
    {s : ReplayedState TracedSession}
    (h : Rebuilt (statefulEngine kb steps allocate fire) config operations s)
    (hclean : s.session.clean) : EventsHeld kb steps s := by
  obtain ⟨world, session, hcreate, hreplay⟩ := h
  let start : ReplayedState TracedSession := { session := session }
  have hends : (replayOperations (statefulEngine kb steps allocate fire) config operations).Ends
      start (fun _ s' ↦ s'.session.clean → Retains kb steps start s') fun _ _ ↦ True := by
    refine Ends.forM (P := fun _ s₁ ↦ s₁.session.clean → Retains kb steps start s₁)
      (fun hclean ↦ .refl hclean) ?_
    intro operation _ s₁ hs₁
    refine .bind ((applyOperation_retains hkb hfire operation s₁).mono (fun _ s₂ hs₂ ↦ .pure ?_)
      fun _ _ h ↦ h)
    exact fun hclean ↦ (hs₁ (hs₂ hclean).clean).trans (hs₂ hclean)
  refine (hends.of_ok hreplay hclean).held ⟨?_, by simp [start], by simp [start]⟩
  cases hcreate
  exact .start _

end Operations

end Facts

/-! ### Retention -/

/-- An advance of the watermark keeps the order of the active events. -/
theorem applyOperation_watermark_order {σ : Type} {engine : RuleEngine σ} (w : Millis)
    (s : ReplayedState σ) :
    (applyOperation engine config (.watermark w)).Ends s
      (fun _ s' ↦ s'.activeEvents.Sublist s.activeEvents) fun _ _ ↦ True := by
  refine .bind ((applyWatermark_ends (P := fun _ _ ↦ True) w s .trivial (fun _ _ _ ↦ .trivial)
    fun _ _ _ ↦ trivial).mono ?_ fun _ _ _ ↦ trivial)
  rintro expired s₁ ⟨-, hactive, -⟩
  refine .bind ((onSession_ends _ s₁).mono ?_ fun _ _ _ ↦ trivial)
  rintro _ _ ⟨session, -, rfl⟩
  refine .pure ?_
  rw [hactive]
  exact List.filter_sublist

/-- What an advance of the watermark to `w` makes of a session `s` with the run `trace`. -/
structure Retention (kb : KnowledgeBase) (config : ContinuousSessionConfig)
    (trace : List (Call × Bool)) (w : Millis) (s s' : ContinuousSession TracedSession) : Prop where
  active : s'.activeEvents.map ActiveEvent.record =
    (acceptedRecords trace).filter fun e ↦ young config.eventRetentionMs w e.eventTimeMs
  dedup : s'.dedupEventTimes =
    (acceptedEvents trace).filter fun entry ↦ young config.dedupRetentionMs w entry.2
  order : s'.activeEvents.Sublist s.activeEvents
  gone : ∀ e ∈ s.activeEvents, e ∉ s'.activeEvents → Absent kb s'.session.session e.fact
  watermark : s'.watermarkMs = some w ∧ ∀ v ∈ s.watermarkMs, v.1 ≤ w.1

/-- **Retention is exact** after every advance of the watermark that succeeds, in every clean run
in which no event with the least time meets a boundary that saturates. -/
theorem retention_exact (kb : KnowledgeBase) (steps : ℕ) (allocate : Session → FactPtr)
    (fire : ℤ → EStateM Failure TracedSession ℤ) (config : ContinuousSessionConfig)
    (hcompile : compileNetwork kb.rules = .ok kb.network) (hlocal : LocalExpressions kb)
    (hfire : FiresClean kb steps fire) {world : TracedSession} {trace : List (Call × Bool)}
    {s s' : ContinuousSession TracedSession}
    (hrun : ContinuousRun (statefulEngine kb steps allocate fire) config world trace s)
    {w : Millis} (hadvance : (Call.advanceWatermark w).run
      (statefulEngine kb steps allocate fire) config s = .ok () s')
    (hleast : NeverSaturated config ((.advanceWatermark w, true) :: trace))
    (hclean : s'.session.clean) : Retention kb config trace w s s' := by
  have hshape := compileNetwork_shape hcompile
  have hkb : kb.Sound := ⟨hshape.wellFormed, hshape.keysFromJoins, hlocal⟩
  obtain ⟨hinv', heffect⟩ := (call_ends _ hrun.inv).of_ok hadvance
  obtain ⟨l, hhistory, hledger⟩ := hrun.history
  cases heffect with
  | advanceWatermark hconsistent hforward hcommitted =>
    obtain rfl := hledger hconsistent
    have hledger' : s'.ledger = s.ledger.advance config w := hcommitted.ledger_eq
    obtain ⟨r, happly⟩ := hcommitted.applied
    have hconsistent' : s'.consistent = true := hcommitted.consistent.trans hconsistent
    obtain ⟨hactive, hdedup⟩ := hhistory.keeps hleast.1
    have hretains := (applyOperation_retains hkb hfire _ _).of_ok happly hclean
    have hheld := (hrun.inv.built hconsistent).eventsHeld hkb hfire hretains.clean
    have hreachable := (hretains.held hheld).reachable.inv hkb
    refine ⟨?_, ?_, ?_, fun e he hgone ↦ ?_, ?_, hforward⟩
    · have hexact := hactive.exact hforward fun e he ↦ ?_
      · exact (congrArg Ledger.active hledger').trans hexact
      · have hentry : (e.eventId, e.eventTimeMs) ∈ acceptedEvents trace := by
          rw [acceptedEvents_eq]
          exact List.mem_map_of_mem he
        exact (hleast.2 _ hentry).1
    · have hexact := hdedup.exact hforward fun entry hentry ↦ (hleast.2 entry hentry).2
      exact (congrArg Ledger.dedup hledger').trans hexact
    · exact (applyOperation_watermark_order w _).of_ok happly
    · exact hreachable.absent hkb (hretains.known (hheld.known e he))
        (hretains.gone hheld e he hgone)
    · exact congrArg Ledger.watermarkMs hledger'

/-- The session of a knowledge base with one stream whose rules do nothing; a new fact gets the
number of its id as its address. -/
def idleEngine : RuleEngine TracedSession :=
  statefulEngine streamBase 1 (fun s ↦ s.workingMemory.nextId.toNat) fun _ ↦ pure 0

/-- An event of the stream. -/
def streamEvent (time : Millis) : EventEnvelope := ⟨"a", "S", time, some { type := "A" }⟩

/-- Events are kept for five milliseconds. -/
def shortConfig : ContinuousSessionConfig := { eventRetentionMs := 5, dedupRetentionMs := 5 }

def streamWorld : TracedSession := { session := { heap := fun _ ↦ {} } }

/-- The session after an event at time zero. -/
def oneEventSession : ContinuousSession TracedSession :=
  ((Call.pushBatch [streamEvent timeZero]).run idleEngine shortConfig
    { session := { session := newSession streamBase 1 fun _ ↦ {} } }).state

theorem oneEventSession_run : ContinuousRun idleEngine shortConfig streamWorld
    [(.pushBatch [streamEvent timeZero], true)] oneEventSession :=
  .of_ok (.start (s := { session := { session := newSession streamBase 1 fun _ ↦ {} } }) rfl) rfl

/-- The session after the event has expired. -/
def expiredSession : ContinuousSession TracedSession :=
  ((Call.advanceWatermark timeFive).run idleEngine shortConfig oneEventSession).state

theorem expiredSession_clean : expiredSession.session.clean := by
  have hevent : CleanEvent streamBase 1 { type := "A" }
      { session := newSession streamBase 1 fun _ ↦ {} } := by
    refine ⟨one_ne_zero, Set.notMem_empty _, rfl, fun f hf ↦ ?_, streamBase_plainReads _ _⟩
    obtain ⟨id, hid⟩ := hf
    have hstore : (newSession streamBase 1 fun _ ↦ {}).workingMemory.facts = [] := rfl
    exact absurd (hstore ▸ hid) List.not_mem_nil
  refine ⟨⟨trivial, hevent⟩, fun p hp ↦ ?_⟩
  have hget : oneEventSession.session.session.workingMemory.get
      (oneEventSession.session.session.heap 1).id = some 1 := rfl
  cases hget.symm.trans hp
  rfl

/-- The event is dropped five milliseconds later, and its fact with it. -/
theorem retention_oneEvent : Retention streamBase shortConfig
    [(.pushBatch [streamEvent timeZero], true)] timeFive oneEventSession expiredSession :=
  retention_exact streamBase 1 (fun s ↦ s.workingMemory.nextId.toNat) (fun _ ↦ pure 0) shortConfig
    rfl (fun _ _ _ _ ↦ ⟨fun _ ↦ rfl, fun _ _ _ _ _ ↦ rfl⟩)
    (fun h hclean ↦ by cases h; exact .refl hclean) oneEventSession_run rfl
    ⟨trivial, by simp [acceptedEvents, streamEvent, timeZero, Unsaturated, int64Min]⟩
    expiredSession_clean

/-- The least time. -/
def leastTime : Millis := ⟨int64Min, by decide⟩

/-- **A young event is dropped**: the event and the watermark have the least time, so that the age
of the event is zero. -/
theorem leastTime_dropped :
    (∃ s, ContinuousRun idleEngine shortConfig streamWorld
      [(.advanceWatermark leastTime, true), (.pushBatch [streamEvent leastTime], true)] s ∧
      s.consistent = true ∧ s.activeEvents = [] ∧ s.dedupEventTimes = []) ∧
    (acceptedRecords [(.pushBatch [streamEvent leastTime], true)]).filter
      (fun e ↦ young shortConfig.eventRetentionMs leastTime e.eventTimeMs) =
        [⟨"a", "S", leastTime⟩] :=
  ⟨⟨_, .of_ok (.of_ok (.start (s := { session := { session := newSession streamBase 1 fun _ ↦ {} } })
    rfl) rfl) rfl, rfl, rfl, rfl⟩, by decide⟩

end RulesForge
