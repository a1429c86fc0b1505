import RulesForge.Engine.ContinuousSession
import RulesForge.Library.Compaction

/-!
# The ledger of a continuous session

What a continuous session keeps about its events, apart from the rule session: the watermark,
the active events without the addresses of their facts, and the deduplication entries. An
operation that succeeds changes the ledger by a function of the operation alone
(`applyOperation_ends`), whatever the rule session does; this is why the replay of the log
restores it.
-/

namespace RulesForge

open EStateM Compaction

/-! ### Ledgers -/

/-- An active event without the address of its fact. -/
structure EventRecord where
  eventId : String
  entryPoint : String
  eventTimeMs : Millis
  deriving DecidableEq

def ActiveEvent.record (e : ActiveEvent) : EventRecord :=
  ⟨e.eventId, e.entryPoint, e.eventTimeMs⟩

@[ext]
structure Ledger where
  watermarkMs : Option Millis := none
  active : List EventRecord := []
  dedup : List (String × Millis) := []

def ReplayedState.ledger {σ : Type} (s : ReplayedState σ) : Ledger :=
  ⟨s.watermarkMs, s.activeEvents.map ActiveEvent.record, s.dedupEventTimes⟩

namespace Ledger

variable (config : ContinuousSessionConfig)

def addEvent (l : Ledger) (event : EventEnvelope) : Ledger :=
  if event.fact.isSome then
    { l with
      active := l.active ++ [⟨event.eventId, event.entryPoint, event.eventTimeMs⟩]
      dedup := AssocMap.insert event.eventId event.eventTimeMs l.dedup }
  else l

/-- Whether an event is past its retention at a watermark. -/
def expiredAt (retentionMs : ℤ) (watermarkMs eventTimeMs : Millis) : Bool :=
  decide (eventTimeMs.1 ≤ checkedSubtract watermarkMs.1 retentionMs)

def advance (l : Ledger) (watermarkMs : Millis) : Ledger where
  watermarkMs := some watermarkMs
  active := l.active.filter fun e ↦ !expiredAt config.eventRetentionMs watermarkMs e.eventTimeMs
  dedup := l.dedup.filter fun entry ↦ !expiredAt config.dedupRetentionMs watermarkMs entry.2

/-- What an operation makes of a ledger. -/
def apply (l : Ledger) : Operation → Ledger
  | .events batch => batch.foldl addEvent l
  | .watermark w => l.advance config w
  | .drain => l

/-- There is room for the events of an operation. -/
structure Fits (l : Ledger) (operation : Operation) : Prop where
  active : l.active.length + operation.eventCount ≤ config.maxActiveEvents
  dedup : l.dedup.length + operation.eventCount ≤ config.maxDedupEntries

theorem length_addEvent (l : Ledger) (event : EventEnvelope) :
    (l.addEvent event).active.length ≤ l.active.length + 1 ∧
      (l.addEvent event).dedup.length ≤ l.dedup.length + 1 := by
  unfold addEvent
  split
  · have hfilter := List.length_filter_le (fun entry : String × Millis ↦ entry.1 ≠ event.eventId)
      l.dedup
    simpa [AssocMap.insert] using hfilter
  · simp

theorem length_apply (l : Ledger) (operation : Operation) :
    (l.apply config operation).active.length ≤ l.active.length + operation.eventCount ∧
      (l.apply config operation).dedup.length ≤ l.dedup.length + operation.eventCount := by
  cases operation with
  | events batch =>
    change (batch.foldl addEvent l).active.length ≤ l.active.length + batch.length ∧
      (batch.foldl addEvent l).dedup.length ≤ l.dedup.length + batch.length
    induction batch generalizing l with
    | nil => simp
    | cons event batch ih =>
      obtain ⟨hactive, hdedup⟩ := ih (l.addEvent event)
      obtain ⟨hactive', hdedup'⟩ := l.length_addEvent event
      simp only [List.foldl_cons, List.length_cons]
      omega
  | watermark w =>
    exact ⟨List.length_filter_le _ _, List.length_filter_le _ _⟩
  | drain => exact ⟨le_rfl, le_rfl⟩

end Ledger

/-! ### Operations on the ledger -/

variable {σ α : Type} {engine : RuleEngine σ} {config : ContinuousSessionConfig}

/-- An operation of the rule session leaves the rest alone. -/
theorem onSession_ends (x : EStateM Failure σ α) (s : ReplayedState σ) :
    (onSession x).Ends s (fun a s' ↦ ∃ session, x s.session = .ok a session ∧
        s' = { s with session := session })
      fun e s' ↦ ∃ session, x s.session = .error e session ∧ s' = { s with session := session } := by
  unfold Ends onSession
  cases hx : x s.session with
  | ok a session => exact ⟨session, rfl, rfl⟩
  | error e session => exact ⟨session, rfl, rfl⟩

theorem applyEvent_ends (event : EventEnvelope) (s : ReplayedState σ) :
    (applyEvent engine event).Ends s (fun _ s' ↦ s'.ledger = s.ledger.addEvent event)
      fun _ s' ↦ s'.ledger = s.ledger := by
  unfold applyEvent Ledger.addEvent
  cases event.fact with
  | none => exact .pure rfl
  | some fact =>
    refine .bind ((onSession_ends _ s).mono ?_ ?_)
    · rintro p _ ⟨session, -, rfl⟩
      refine .modify ?_
      simp [ReplayedState.ledger, ActiveEvent.record]
    · rintro e _ ⟨session, -, rfl⟩
      rfl

theorem applyEvents_ends (events : List EventEnvelope) (s : ReplayedState σ) :
    (events.forM (applyEvent engine)).Ends s
      (fun _ s' ↦ s'.ledger = events.foldl Ledger.addEvent s.ledger)
      fun _ s' ↦ s'.activeEvents.length ≤ s.activeEvents.length + events.length ∧
        s'.dedupEventTimes.length ≤ s.dedupEventTimes.length + events.length := by
  -- The rest of the events lead from the state so far to the final ledger, and there is room
  -- for them within the bounds.
  let P (rest : List EventEnvelope) (s' : ReplayedState σ) : Prop :=
    rest.foldl Ledger.addEvent s'.ledger = events.foldl Ledger.addEvent s.ledger ∧
      s'.ledger.active.length + rest.length ≤ s.ledger.active.length + events.length ∧
      s'.ledger.dedup.length + rest.length ≤ s.ledger.dedup.length + events.length
  have hloop : (events.forM (applyEvent engine)).Ends s (fun _ ↦ P [])
      fun _ s' ↦ s'.ledger.active.length ≤ s.ledger.active.length + events.length ∧
        s'.ledger.dedup.length ≤ s.ledger.dedup.length + events.length := by
    refine Ends.forM (P := P) ⟨rfl, le_rfl, le_rfl⟩ ?_
    rintro event rest s₁ ⟨hfold, hactive, hdedup⟩
    rw [List.length_cons] at hactive hdedup
    refine (applyEvent_ends event s₁).mono (fun _ s₂ hs₂ ↦ ?_) fun _ s₂ hs₂ ↦ ?_
    · obtain ⟨hactive', hdedup'⟩ := s₁.ledger.length_addEvent event
      refine ⟨?_, ?_, ?_⟩
      · rw [hs₂]
        exact hfold
      · rw [hs₂]
        omega
      · rw [hs₂]
        omega
    · rw [hs₂]
      omega
  refine hloop.mono (fun _ s' h ↦ h.1) fun _ s' h ↦ ?_
  simpa [ReplayedState.ledger] using h

section Watermark

-- What is said of the rule session after a number of active events have been read.
variable {P : ℕ → σ → Prop} {boundary : ℤ} {orig : List ActiveEvent}
  (hretract : ∀ {it e session}, orig[it]? = some e → e.eventTimeMs.1 ≤ boundary → P it session →
    (engine.retractFrom e.entryPoint e.fact).Ends session (fun _ ↦ P (it + 1)) fun _ _ ↦ True)
  (hstay : ∀ {it e session}, orig[it]? = some e → ¬ e.eventTimeMs.1 ≤ boundary →
    P it session → P (it + 1) session)
include hretract hstay

/-- The loop over the active events. -/
theorem compactActiveEvents_ends (rounds : ℕ) {it out : ℕ} (expired : ℕ) {s : ReplayedState σ}
    (hrounds : it + rounds = orig.length) (hP : P it s.session)
    (h : Compacting (fun e ↦ !decide (e.eventTimeMs.1 ≤ boundary)) orig s.activeEvents it out) :
    (compactActiveEvents engine boundary rounds it out expired).Ends s
      (fun r s' ↦ s'.activeEvents.take r.1 =
          orig.filter (fun e ↦ !decide (e.eventTimeMs.1 ≤ boundary)) ∧
        s'.watermarkMs = s.watermarkMs ∧ s'.dedupEventTimes = s.dedupEventTimes ∧
        P orig.length s'.session)
      fun _ s' ↦ s'.activeEvents.length = orig.length ∧
        s'.dedupEventTimes = s.dedupEventTimes := by
  induction rounds generalizing it out expired s with
  | zero =>
    obtain rfl : it = orig.length := hrounds
    exact .pure ⟨h.finish le_rfl, rfl, rfl, hP⟩
  | succ rounds ih =>
    unfold compactActiveEvents
    refine .bind (.get ?_)
    have hlt : it < s.activeEvents.length := by
      rw [h.length]
      omega
    have hget : s.activeEvents[it]? = some s.activeEvents[it] := List.getElem?_eq_getElem hlt
    generalize s.activeEvents[it] = e at hget
    have horig : orig[it]? = some e := h.getElem?_eq ▸ hget
    simp only [hget]
    split
    · next hexpired =>
      refine .bind ((onSession_ends _ s).mono ?_ ?_)
      · rintro _ _ ⟨session, hsession, rfl⟩
        have hP' := (hretract horig hexpired hP).of_ok hsession
        exact ih (expired + 1) (by omega) hP' (h.skip hget (by simp [hexpired]))
      · rintro _ _ ⟨session, -, rfl⟩
        exact ⟨h.length, rfl⟩
    · next hkept =>
      have hP' := hstay horig hkept hP
      split
      · next hout =>
        refine .bind (.modify ?_)
        exact ih expired (by omega) hP' (h.move e.movedFrom hget (by simpa using hkept) hout)
      · next hout =>
        exact ih expired (by omega) hP' (h.stay hget (by simpa using hkept) (not_not.mp hout))

end Watermark

/-- `apply_watermark` drops the events past their retention, in place. -/
theorem applyWatermark_ends (w : Millis) (s : ReplayedState σ) {P : ℕ → σ → Prop}
    (hadvance : (engine.advanceEventTime w).Ends s.session (fun _ ↦ P 0) fun _ _ ↦ True)
    (hretract : ∀ {it e session}, s.activeEvents[it]? = some e →
      Ledger.expiredAt config.eventRetentionMs w e.eventTimeMs = true → P it session →
      (engine.retractFrom e.entryPoint e.fact).Ends session (fun _ ↦ P (it + 1)) fun _ _ ↦ True)
    (hstay : ∀ {it e session}, s.activeEvents[it]? = some e →
      Ledger.expiredAt config.eventRetentionMs w e.eventTimeMs = false → P it session →
      P (it + 1) session) :
    (applyWatermark engine config w).Ends s
      (fun _ s' ↦ s'.ledger = s.ledger.advance config w ∧
        s'.activeEvents = s.activeEvents.filter (fun e ↦
          !Ledger.expiredAt config.eventRetentionMs w e.eventTimeMs) ∧
        P s.activeEvents.length s'.session)
      fun _ s' ↦ s'.activeEvents.length ≤ s.activeEvents.length ∧
        s'.dedupEventTimes.length ≤ s.dedupEventTimes.length := by
  unfold applyWatermark
  refine .bind ((onSession_ends _ s).mono ?_ ?_)
  · rintro expired _ ⟨session, hsession, rfl⟩
    let s₀ : ReplayedState σ := { s with session := session, watermarkMs := some w }
    have hloop := compactActiveEvents_ends (fun he hexpired ↦ hretract he (decide_eq_true hexpired))
      (fun he hkept ↦ hstay he (decide_eq_false hkept)) s₀.activeEvents.length expired
      (Nat.zero_add _) (s := s₀) (hadvance.of_ok hsession) (.start _ _)
    refine .bind (.modify (.bind (.get (.bind (hloop.mono ?_ ?_)))))
    · rintro ⟨out, expired⟩ s₁ ⟨hactive, hwatermark, hdedup, hP⟩
      refine .bind (.modify (.bind (.modify (.pure ?_))))
      have hwatermark : s₁.watermarkMs = some w := hwatermark
      have hdedup : s₁.dedupEventTimes = s.dedupEventTimes := hdedup
      have hmap : (s₁.activeEvents.take out).map ActiveEvent.record =
          (s.activeEvents.map ActiveEvent.record).filter fun e ↦
            !Ledger.expiredAt config.eventRetentionMs w e.eventTimeMs := by
        rw [hactive, List.filter_map]
        rfl
      refine ⟨?_, ?_, ?_⟩
      · ext1
        · simp [hwatermark, ReplayedState.ledger, Ledger.advance]
        · simpa [hwatermark, ReplayedState.ledger, Ledger.advance] using hmap
        · simp only [hwatermark, hdedup, ReplayedState.ledger, Ledger.advance, Ledger.expiredAt,
            decide_not]
      · simpa [hwatermark, Ledger.expiredAt] using hactive
      · simpa [hwatermark] using hP
    · rintro _ s₁ ⟨hactive, hdedup⟩
      rw [hactive, hdedup]
      exact ⟨le_rfl, le_rfl⟩
  · rintro _ _ ⟨session, -, rfl⟩
    exact ⟨le_rfl, le_rfl⟩

/-- **An operation that succeeds acts on the ledger alone**; one that fails leaves no more
events than it could have brought. -/
theorem applyOperation_ends (operation : Operation) (s : ReplayedState σ) :
    (applyOperation engine config operation).Ends s
      (fun _ s' ↦ s'.ledger = s.ledger.apply config operation)
      fun _ s' ↦ s'.activeEvents.length ≤ s.activeEvents.length + operation.eventCount ∧
        s'.dedupEventTimes.length ≤ s.dedupEventTimes.length + operation.eventCount := by
  have hfire : ∀ s₁ : ReplayedState σ, s₁.ledger = s.ledger.apply config operation →
      ∀ expired : ℕ, (do
        let rulesFired ← onSession (engine.fireAllRulesFailFast config.maxRulesPerStep)
        return (rulesFired, expired)).Ends s₁
        (fun _ s' ↦ s'.ledger = s.ledger.apply config operation)
        fun _ s' ↦ s'.activeEvents.length ≤ s.activeEvents.length + operation.eventCount ∧
          s'.dedupEventTimes.length ≤ s.dedupEventTimes.length + operation.eventCount := by
    intro s₁ hs₁ expired
    refine .bind ((onSession_ends _ s₁).mono ?_ ?_)
    · rintro _ _ ⟨session, -, rfl⟩
      exact .pure hs₁
    · rintro _ _ ⟨session, -, rfl⟩
      obtain ⟨hactive, hdedup⟩ := s.ledger.length_apply config operation
      rw [← hs₁] at hactive hdedup
      simp only [ReplayedState.ledger, List.length_map] at hactive hdedup
      exact ⟨hactive, hdedup⟩
  unfold applyOperation
  cases operation with
  | events events =>
    exact .bind ((applyEvents_ends events s).mono
      (fun _ s₁ hs₁ ↦ .bind (.pure (hfire s₁ hs₁ 0))) fun _ _ h ↦ h)
  | watermark w =>
    exact .bind ((applyWatermark_ends (P := fun _ _ ↦ True) w s .trivial (fun _ _ _ ↦ .trivial)
      fun _ _ _ ↦ trivial).mono (fun expired s₁ hs₁ ↦ hfire s₁ hs₁.1 expired) fun _ _ h ↦ h)
  | drain => exact .bind (.pure (hfire s rfl 0))

end RulesForge
