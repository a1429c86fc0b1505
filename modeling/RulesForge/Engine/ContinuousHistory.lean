import RulesForge.Engine.ContinuousGuarantees

/-!
# Histories of continuous sessions

The watermark, the active events and the deduplication entries of a session are a function of
its calls and their outcomes (`ContinuousRun.history`): a batch that was accepted is appended, an
advance of the watermark drops what is past its retention, and nothing else changes them. No
event is accepted twice when deduplication lasts longer than lateness.

Boundaries are differences that saturate at the least 64-bit value, so an event with that very
time counts as expired although it is younger than its retention.
-/

namespace RulesForge

open EStateM

variable {σ : Type} {engine : RuleEngine σ} {config : ContinuousSessionConfig} {world : σ}

/-! ### Histories -/

/-- The ledger with the events of a batch. -/
def Ledger.accept (l : Ledger) (events : List EventEnvelope) : Ledger :=
  { l with
    active := l.active ++ events.map fun e ↦ ⟨e.eventId, e.entryPoint, e.eventTimeMs⟩
    dedup := l.dedup ++ events.map fun e ↦ (e.eventId, e.eventTimeMs) }

/-- The calls of a run with their outcomes, the latest first, and the ledger they leave. An
accepted event has an id that is not remembered and is not late. -/
inductive History (config : ContinuousSessionConfig) : List (Call × Bool) → Ledger → Prop
  | start : History config [] {}
  | pushBatch {trace l events} : History config trace l →
      (∀ e ∈ events, AssocMap.contains e.eventId l.dedup = false) →
      (events.map EventEnvelope.eventId).Nodup →
      (∀ e ∈ events, ∀ w ∈ l.watermarkMs, lateBoundary config w ≤ e.eventTimeMs.1) →
      History config ((.pushBatch events, true) :: trace) (l.accept events)
  | advanceWatermark {trace l w} : History config trace l → (∀ v ∈ l.watermarkMs, v.1 ≤ w.1) →
      History config ((.advanceWatermark w, true) :: trace) (l.advance config w)
  | drain {trace l} : History config trace l → History config ((.drain, true) :: trace) l
  | acknowledge {trace l id} : History config trace l →
      History config ((.acknowledge id, true) :: trace) l
  | failed {trace l call} : History config trace l → History config ((call, false) :: trace) l

theorem Ledger.addEvent_clone (l : Ledger) {event : EventEnvelope} (h : event.fact.isSome = true) :
    l.addEvent (cloneEnvelope event) =
      { l with
        active := l.active ++ [⟨event.eventId, event.entryPoint, event.eventTimeMs⟩]
        dedup := AssocMap.insert event.eventId event.eventTimeMs l.dedup } := by
  simp [addEvent, cloneEnvelope, h]

/-- Fresh events are appended to the ledger. -/
theorem Ledger.apply_events (l : Ledger) {events : List EventEnvelope}
    (hfacts : ∀ e ∈ events, e.fact.isSome = true)
    (hfresh : ∀ e ∈ events, AssocMap.contains e.eventId l.dedup = false)
    (hids : (events.map EventEnvelope.eventId).Nodup) :
    l.apply config (.events (events.map cloneEnvelope)) =
      l.accept events := by
  change (events.map cloneEnvelope).foldl Ledger.addEvent l = _
  induction events generalizing l with
  | nil => simp [Ledger.accept]
  | cons event events ih =>
    obtain ⟨hfact, hfacts⟩ := List.forall_mem_cons.mp hfacts
    obtain ⟨hnew, hfresh⟩ := List.forall_mem_cons.mp hfresh
    obtain ⟨hnotin, hids⟩ := List.nodup_cons.mp hids
    have hinsert : AssocMap.insert event.eventId event.eventTimeMs l.dedup =
        l.dedup ++ [(event.eventId, event.eventTimeMs)] := by
      rw [AssocMap.insert, List.filter_eq_self.mpr]
      intro entry hentry
      have hany := List.any_eq_false.mp hnew entry hentry
      simpa using hany
    rw [List.map_cons, List.foldl_cons, l.addEvent_clone hfact, hinsert, ih _ hfacts ?_ hids]
    · simp [Ledger.accept]
    · intro e he
      have hne : e.eventId ≠ event.eventId := by
        rintro heq
        exact hnotin (heq ▸ List.mem_map_of_mem he)
      have hold := hfresh e he
      simp only [AssocMap.contains, List.any_append, Bool.or_eq_false_iff] at hold ⊢
      exact ⟨hold, by simpa using Ne.symm hne⟩

/-- A failed call of a session that stays consistent leaves the ledger. -/
theorem CallFailure.ledger_eq {s s' : ContinuousSession σ} (h : CallFailure engine config s s')
    (hinv : ContinuousInv engine config s) (hconsistent : s'.consistent = true) :
    s'.ledger = s.ledger := by
  rw [(h.inv.built hconsistent).ledger_eq, h.committed,
    (hinv.built (h.consistent hconsistent)).ledger_eq]

/-- A successful call extends the history. -/
theorem CallEffect.history {call : Call} {s s' : ContinuousSession σ}
    (h : CallEffect engine config s s' call) {trace : List (Call × Bool)} {l : Ledger}
    (hhistory : History config trace l) (hledger : s.consistent = true → s.ledger = l) :
    ∃ l', History config ((call, true) :: trace) l' ∧
      (s'.consistent = true → s'.ledger = l') := by
  cases h with
  | pushBatch hadmitted hcommitted =>
    obtain rfl := hledger (consistent_of_isConsistent hadmitted.consistent)
    refine ⟨_, .pushBatch hhistory hadmitted.fresh hadmitted.ids hadmitted.timely, fun _ ↦ ?_⟩
    rw [hcommitted.ledger_eq]
    exact Ledger.apply_events s.ledger hadmitted.facts hadmitted.fresh hadmitted.ids
  | advanceWatermark hconsistent hforward hcommitted =>
    obtain rfl := hledger hconsistent
    exact ⟨_, .advanceWatermark hhistory hforward, fun _ ↦ hcommitted.ledger_eq⟩
  | drain hcommitted =>
    refine ⟨l, .drain hhistory, fun hconsistent ↦ ?_⟩
    rw [hcommitted.ledger_eq]
    exact hledger (hcommitted.consistent ▸ hconsistent)
  | acknowledge hbatches heq =>
    exact ⟨l, .acknowledge hhistory, by rw [heq]; exact hledger⟩

/-- **The ledger is a function of the history**: every run of a session has a history, and a
session that is consistent has the ledger of its history. -/
theorem ContinuousRun.history {trace : List (Call × Bool)} {s : ContinuousSession σ}
    (h : ContinuousRun engine config world trace s) :
    ∃ l, History config trace l ∧ (s.consistent = true → s.ledger = l) := by
  induction h with
  | start hnew => exact ⟨{}, .start, fun _ ↦ (newContinuousSession_inv hnew).2.1⟩
  | @call trace s call hrun ih =>
    obtain ⟨l, hhistory, hledger⟩ := ih
    have hends := call_ends call hrun.inv
    cases hresult : call.run engine config s with
    | ok u s' => exact (hends.of_ok hresult).2.history hhistory hledger
    | error failure s' =>
      have hfailure := hends.of_error hresult
      refine ⟨l, .failed hhistory, fun hconsistent ↦ ?_⟩
      exact (hfailure.ledger_eq hrun.inv hconsistent).trans
        (hledger (hfailure.consistent hconsistent))

/-! ### Accepted events -/

/-- The ids and times of the events accepted in a run. -/
def acceptedEvents : List (Call × Bool) → List (String × Millis)
  | [] => []
  | (.pushBatch events, true) :: trace =>
    acceptedEvents trace ++ events.map fun e ↦ (e.eventId, e.eventTimeMs)
  | _ :: trace => acceptedEvents trace

/-- The watermarks advanced to in a run. -/
def watermarks : List (Call × Bool) → List Millis
  | [] => []
  | (.advanceWatermark w, true) :: trace => w :: watermarks trace
  | _ :: trace => watermarks trace

/-- An event whose deduplication entry is dropped is late, unless it has the least time and the
boundary of lateness is no higher. -/
theorem late_of_expired (hwindows : config.allowedLatenessMs < config.dedupRetentionMs)
    {w t : Millis} (hexpired : Ledger.expiredAt config.dedupRetentionMs w t = true)
    (hleast : t.1 = int64Min → int64Min + config.allowedLatenessMs < w.1) :
    t.1 < lateBoundary config w := by
  have hle := t.2.1
  replace hexpired := of_decide_eq_true hexpired
  unfold checkedSubtract at hexpired
  unfold lateBoundary checkedSubtract
  split at hexpired
  · have heq : t.1 = int64Min := le_antisymm hexpired hle
    have hlow := hleast heq
    rw [if_neg (by omega)]
    omega
  · rw [if_neg (by omega)]
    omega

theorem lateBoundary_mono {v w : Millis} (h : v.1 ≤ w.1) :
    lateBoundary config v ≤ lateBoundary config w := by
  unfold lateBoundary checkedSubtract
  split <;> split <;> omega

/-- The events accepted so far are remembered, or late. -/
def Guarded (config : ContinuousSessionConfig) (l : Ledger) (accepted : List (String × Millis)) :
    Prop :=
  ∀ entry ∈ accepted, entry ∈ l.dedup ∨ ∃ w ∈ l.watermarkMs, entry.2.1 < lateBoundary config w

theorem Guarded.accept {l : Ledger} {accepted : List (String × Millis)}
    (h : Guarded config l accepted) (events : List EventEnvelope) :
    Guarded config (l.accept events)
      (accepted ++ events.map fun e ↦ (e.eventId, e.eventTimeMs)) := by
  intro entry hentry
  rcases List.mem_append.mp hentry with hentry | hentry
  · exact (h entry hentry).imp (List.mem_append_left _) id
  · exact .inl (List.mem_append_right _ hentry)

theorem Guarded.advance (hwindows : config.allowedLatenessMs < config.dedupRetentionMs)
    {l : Ledger} {accepted : List (String × Millis)} (h : Guarded config l accepted) {w : Millis}
    (hforward : ∀ v ∈ l.watermarkMs, v.1 ≤ w.1)
    (hleast : ∀ entry ∈ accepted, entry.2.1 = int64Min →
      int64Min + config.allowedLatenessMs < w.1) :
    Guarded config (l.advance config w) accepted := by
  intro entry hentry
  rcases h entry hentry with hmem | ⟨v, hv, hlate⟩
  · cases hexpired : Ledger.expiredAt config.dedupRetentionMs w entry.2 with
    | true => exact .inr ⟨w, rfl, late_of_expired hwindows hexpired (hleast entry hentry)⟩
    | false => exact .inl (List.mem_filter.mpr ⟨hmem, by simp [hexpired]⟩)
  · exact .inr ⟨w, rfl, hlate.trans_le (lateBoundary_mono (hforward v hv))⟩

/-- An event that is neither remembered nor late has not been accepted before. -/
theorem Guarded.not_accepted {l : Ledger} {accepted : List (String × Millis)}
    (h : Guarded config l accepted) {e : EventEnvelope}
    (hfresh : AssocMap.contains e.eventId l.dedup = false)
    (htimely : ∀ w ∈ l.watermarkMs, lateBoundary config w ≤ e.eventTimeMs.1) :
    (e.eventId, e.eventTimeMs) ∉ accepted := by
  intro hmem
  rcases h _ hmem with hdedup | ⟨w, hw, hlate⟩
  · have hany := List.any_eq_false.mp hfresh _ hdedup
    simp at hany
  · exact not_lt.mpr (htimely w hw) hlate

/-- The accepted events of a history are distinct, and remembered or late. -/
theorem History.guarded (hwindows : config.allowedLatenessMs < config.dedupRetentionMs)
    {trace : List (Call × Bool)} {l : Ledger} (h : History config trace l)
    (hleast : ∀ entry ∈ acceptedEvents trace, entry.2.1 = int64Min →
      ∀ w ∈ watermarks trace, int64Min + config.allowedLatenessMs < w.1) :
    Guarded config l (acceptedEvents trace) ∧ (acceptedEvents trace).Nodup := by
  induction h with
  | start => exact ⟨by simp [Guarded, acceptedEvents], List.nodup_nil⟩
  | @pushBatch trace l events _ hfresh hids htimely ih =>
    obtain ⟨hguarded, hnodup⟩ :=
      ih fun entry hentry ↦ hleast entry (List.mem_append_left _ hentry)
    refine ⟨hguarded.accept events, hnodup.append ?_ ?_⟩
    · refine List.Nodup.of_map Prod.fst ?_
      rw [List.map_map]
      exact hids
    · rintro _ hold hnew
      obtain ⟨e, he, rfl⟩ := List.mem_map.mp hnew
      exact hguarded.not_accepted (hfresh e he) (htimely e he) hold
  | @advanceWatermark trace l w _ hforward ih =>
    obtain ⟨hguarded, hnodup⟩ :=
      ih fun entry hentry heq v hv ↦ hleast entry hentry heq v (List.mem_cons_of_mem _ hv)
    exact ⟨hguarded.advance hwindows hforward
      fun entry hentry heq ↦ hleast entry hentry heq w List.mem_cons_self, hnodup⟩
  | drain _ ih => exact ih hleast
  | acknowledge _ ih => exact ih hleast
  | @failed trace l call _ ih => cases call <;> exact ih hleast

/-- **No event is accepted twice** where ids are remembered for longer than events may be late,
if no event of the least time meets a watermark whose boundary of lateness saturates. -/
theorem accepted_nodup (engine : RuleEngine σ) (config : ContinuousSessionConfig)
    (hwindows : config.allowedLatenessMs < config.dedupRetentionMs) {world : σ}
    {trace : List (Call × Bool)} {s : ContinuousSession σ}
    (hrun : ContinuousRun engine config world trace s)
    (hleast : ∀ entry ∈ acceptedEvents trace, entry.2.1 = int64Min →
      ∀ w ∈ watermarks trace, int64Min + config.allowedLatenessMs < w.1) :
    (acceptedEvents trace).Nodup := by
  obtain ⟨l, hhistory, -⟩ := hrun.history
  exact (hhistory.guarded hwindows hleast).2

theorem accepted_nodup_oneBatch : (acceptedEvents
    [(.pushBatch [storeEvent "a" timeZero], true)]).Nodup :=
  accepted_nodup storeEngine oneBatchConfig (by decide) oneBatchSession_run
    fun _ _ _ w hw ↦ absurd hw List.not_mem_nil

/-- Ids are forgotten after five milliseconds, and events may be ten milliseconds late. -/
def forgetfulConfig : ContinuousSessionConfig :=
  { allowedLatenessMs := 10, eventRetentionMs := 5, dedupRetentionMs := 5 }

def timeFive : Millis := ⟨5, by decide⟩

/-- The calls that push an event, let its id expire and push it again. -/
def pushedTwice : List (Call × Bool) :=
  [(.pushBatch [storeEvent "a" timeZero], true), (.advanceWatermark timeFive, true),
    (.pushBatch [storeEvent "a" timeZero], true)]

/-- A validated configuration under which an event is accepted twice. -/
theorem accepted_twice :
    (∃ s, ContinuousRun storeEngine forgetfulConfig {} pushedTwice s) ∧
      ¬ (acceptedEvents pushedTwice).Nodup :=
  ⟨⟨_, .of_ok (.of_ok (.of_ok (s := { session := {} }) (.start rfl) rfl) rfl) rfl⟩, by decide⟩

end RulesForge
