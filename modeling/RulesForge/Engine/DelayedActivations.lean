import RulesForge.Engine.LostActivations
import RulesForge.Library.History

/-!
# Delayed activations

A rule with a duration is meant to be executed when its match has lasted that long.
`add_with_duration` (`include/engine/agenda.hpp`) puts the activation into a queue of its own, and
`flush_ready_delayed` takes it to the agenda when its time has come. `add_batch`, the way of a
batch of tokens to the agenda, knows no durations; `remove` and `remove_activations_with_fact_id`
do not look into the queue, so what ends a match does not reach a delayed activation. It is still
skipped when one of its facts is not in working memory at its turn.

The log tells the time of the clock at every event. An execution is **timely** if its match has come
into being early enough and has not ended since (`Timely`). Where no batch matches a rule with a
duration, and an activation whose match has ended while it was out of reach has lost one of its
facts for as long as it waits, every execution of every sequence of operations is timely
(`executions_timely`); in `batched_executesEarly` a batch of facts executes a rule before its time.
-/

namespace RulesForge

/-! ### The property -/

/-- The event ends the match of an activation. -/
def AgendaEvent.Ends (b : Activation) : AgendaEvent → Prop
  | .ended hash => hash = b.hashValue
  | .left touches => touches b.token = true
  | _ => False

/-- The match of an activation has lasted its duration at a time: it has come into being early enough
and has not ended since. -/
def DueAt (past : List (SessionData × AgendaEvent)) (b : Activation) (time : ℤ) : Prop :=
  History.Stands
    (fun entry ↦ (∃ batched, entry.2 = .added b batched) ∧ entry.1.now + b.rule.duration ≤ time)
    (fun entry ↦ entry.2.Ends b) past

/-- The executions of rules with a duration are in time. -/
def Timely : List (SessionData × AgendaEvent) → Prop :=
  History.Keeps fun past entry ↦
    ∀ a, entry.2 = .fired a → 0 < a.rule.duration → DueAt past a entry.1.now

/-- An activation is out of reach of what ends matches: it is delayed, or in the batch. -/
def OutOfReach (agenda : Agenda) (batch : List PoppedActivationItem) (b : Activation) : Prop :=
  (∃ time, (time, b) ∈ agenda.delayedActivations) ∨ ∃ item ∈ batch, item.activation = b

/-- The match of an activation has ended while it was out of reach, and it has waited ever since. -/
def EndedApart (b : Activation) : List (SessionData × AgendaEvent) → Prop :=
  History.Stands (fun entry ↦ entry.2.Ends b ∧ OutOfReach entry.1.agenda entry.1.batch b)
    fun entry ↦ ¬ Waits entry.1.agenda entry.1.batch b

/-- What is asked of an entry of the log: the clock does not go back; no batch matches a rule with a
duration; and an activation of such a rule whose match has ended out of reach has lost one of its
facts. -/
structure DelayRespected (kb : KnowledgeBase) (past : List (SessionData × AgendaEvent))
    (entry : SessionData × AgendaEvent) : Prop where
  clock : ∀ now, entry.2 = .ticked now → entry.1.now ≤ now
  batch : ∀ a, entry.2 = .added a true → ¬ 0 < a.rule.duration
  gone : ∀ b, Waits entry.1.agenda entry.1.batch b → 0 < b.rule.duration → EndedApart b past →
    activationValid kb entry.1.toSession b = false

/-- The delays are respected all along. -/
def DelaysRespected (kb : KnowledgeBase) : List (SessionData × AgendaEvent) → Prop :=
  History.Keeps (DelayRespected kb)

/-! ### What waits, and until when -/

/-- An activation waits, and is not executed before a time: the time of the queue if it is delayed,
else the time of the clock. -/
def WaitsUntil (agenda : Agenda) (batch : List PoppedActivationItem) (now time : ℤ)
    (b : Activation) : Prop :=
  (time, b) ∈ agenda.delayedActivations ∨
    time = now ∧ ((∃ hash, (hash, b) ∈ agenda.agendaMap) ∨ ∃ item ∈ batch, item.activation = b)

namespace WaitsUntil

variable {agenda agenda' : Agenda} {batch batch' : List PoppedActivationItem} {now now' time : ℤ}
  {a b : Activation}

theorem waits (h : WaitsUntil agenda batch now time b) : Waits agenda batch b := by
  rcases h with h | ⟨-, h | h⟩
  · exact .inr (.inl ⟨time, h⟩)
  · exact .inl h
  · exact .inr (.inr h)

theorem congr (hmap : agenda'.agendaMap = agenda.agendaMap)
    (hdelayed : agenda'.delayedActivations = agenda.delayedActivations)
    (h : WaitsUntil agenda' batch now time b) : WaitsUntil agenda batch now time b := by
  unfold WaitsUntil at h ⊢
  rwa [hmap, hdelayed] at h

/-- What is not executed before a time is not executed before an earlier time of the clock. -/
theorem earlier (hnow : now ≤ now') (h : WaitsUntil agenda batch now' time b) :
    ∃ time₀ ≤ time, WaitsUntil agenda batch now time₀ b := by
  rcases h with h | ⟨rfl, h⟩
  · exact ⟨time, le_rfl, .inl h⟩
  · exact ⟨now, hnow, .inr ⟨rfl, h⟩⟩

theorem of_gains {added : List Activation} (hgains : agenda.Gains added agenda')
    (h : WaitsUntil agenda' batch now time b) :
    WaitsUntil agenda batch now time b ∨ b ∈ added ∧ time = now := by
  rcases h with h | ⟨rfl, ⟨hash, h⟩ | h⟩
  · rw [hgains.delayed] at h
    exact .inl (.inl h)
  · rcases hgains.map h with h | ⟨h, -⟩
    · exact .inl (.inr ⟨rfl, .inl ⟨hash, h⟩⟩)
    · exact .inr ⟨h, rfl⟩
  · exact .inl (.inr ⟨rfl, .inr h⟩)

/-- What is left after a removal was there before, and was not removed unless it is out of reach of
the removal. -/
theorem of_loses {lost : ℕ → Prop} (hkeyed : agenda.Keyed) (hloses : agenda.Loses lost agenda')
    (h : WaitsUntil agenda' batch now time b) :
    WaitsUntil agenda batch now time b ∧
      ((∃ time, (time, b) ∈ agenda.delayedActivations) ∨ (∃ item ∈ batch, item.activation = b) ∨
        ¬ lost b.hashValue ∧ (b.hashValue, b) ∈ agenda.agendaMap) := by
  rcases h with h | ⟨rfl, ⟨hash, h⟩ | h⟩
  · rw [hloses.delayed] at h
    exact ⟨.inl h, .inl ⟨time, h⟩⟩
  · obtain ⟨hlost, hmem⟩ := hloses.map.mp h
    obtain rfl := hkeyed.key hmem
    exact ⟨.inr ⟨rfl, .inl ⟨_, hmem⟩⟩, .inr (.inr ⟨hlost, hmem⟩)⟩
  · exact ⟨.inr ⟨rfl, .inr h⟩, .inr (.inl h)⟩

/-- An added activation waits for its duration, or is on the agenda at once. -/
theorem of_addWithDuration (h : WaitsUntil (agenda.addWithDuration now a) batch now time b) :
    WaitsUntil agenda batch now time b ∨
      b = a ∧ (0 < a.rule.duration → time = now + a.rule.duration) := by
  unfold Agenda.addWithDuration at h
  split at h
  · rcases h with h | h
    · rcases List.mem_append.mp h with h | h
      · exact .inl (.inl h)
      · cases List.mem_singleton.mp h
        exact .inr ⟨rfl, fun _ ↦ rfl⟩
    · exact .inl (.inr h)
  · next hduration =>
    rcases of_gains (.add agenda a) h with h | ⟨h, -⟩
    · exact .inl h
    · exact .inr ⟨List.mem_singleton.mp h, fun hpos ↦ absurd hpos hduration⟩

/-- What is flushed was delayed until a time that has come. -/
theorem of_flushReadyDelayed (hnow : now ≤ now')
    (h : WaitsUntil (agenda.flushReadyDelayed now') batch now' time b) :
    ∃ time₀ ≤ time, WaitsUntil agenda batch now time₀ b := by
  have hgains := Agenda.Gains.addBatch
    { agenda with delayedActivations := agenda.delayedActivations.filter fun d ↦ ¬ d.1 ≤ now' }
    (((agenda.delayedActivations.filter fun d ↦ d.1 ≤ now').insertionSort
      fun a b ↦ a.1 ≤ b.1).map Prod.snd)
  rcases of_gains hgains h with h | ⟨hready, rfl⟩
  · rcases h with h | h
    · exact ⟨time, le_rfl, .inl (List.mem_filter.mp h).1⟩
    · exact earlier hnow (.inr h)
  · obtain ⟨⟨time₀, b⟩, hmem, rfl⟩ := List.mem_map.mp hready
    obtain ⟨hmem, hle⟩ := List.mem_filter.mp ((List.perm_insertionSort _ _).mem_iff.mp hmem)
    exact ⟨time₀, by simpa using hle, .inl hmem⟩

/-- What was popped was on the agenda. -/
theorem of_popped (hpopped : agenda.Popped batch agenda')
    (h : WaitsUntil agenda' batch now time b) : WaitsUntil agenda [] now time b := by
  rcases h with h | ⟨rfl, ⟨hash, h⟩ | ⟨item, hitem, rfl⟩⟩
  · rw [hpopped.delayed] at h
    exact .inl h
  · exact .inr ⟨rfl, .inl ⟨hash, hpopped.map h⟩⟩
  · exact .inr ⟨rfl, .inl (hpopped.batch item hitem)⟩

theorem of_requeue (h : WaitsUntil (agenda.requeueBatchActivations batch 0) [] now time b) :
    WaitsUntil agenda batch now time b := by
  rcases of_gains (.requeueBatch agenda batch) h with h | ⟨hadded, rfl⟩
  · rcases h with h | ⟨rfl, h | ⟨item, hitem, -⟩⟩
    · exact .inl h
    · exact .inr ⟨rfl, .inl h⟩
    · exact absurd hitem List.not_mem_nil
  · obtain ⟨item, hitem, rfl⟩ := List.mem_map.mp hadded
    exact .inr ⟨rfl, .inr ⟨item, hitem, rfl⟩⟩

theorem of_batch_subset (hsubset : batch' ⊆ batch) (h : WaitsUntil agenda batch' now time b) :
    WaitsUntil agenda batch now time b := by
  rcases h with h | ⟨rfl, h | ⟨item, hitem, hb⟩⟩
  · exact .inl h
  · exact .inr ⟨rfl, .inl h⟩
  · exact .inr ⟨rfl, .inr ⟨item, hsubset hitem, hb⟩⟩

end WaitsUntil

/-! ### What a step does to the waiting activations -/

section StepLemmas

variable {kb : KnowledgeBase} {s s' : Session} {entries : List (SessionData × AgendaEvent)}
  {time : ℤ} {b : Activation}

/-- What a step makes of an activation that waits after it: it waited before, and what ended its
match did not reach it; or it is new, and waits for its duration unless it is of a batch. -/
inductive Origin (s : Session) (entries : List (SessionData × AgendaEvent)) (time : ℤ)
    (b : Activation) : Prop
  | waited {time₀ : ℤ} (hle : time₀ ≤ time)
      (hwaits : WaitsUntil s.agenda s.batch s.now time₀ b)
      (hreach : ∀ entry ∈ entries, entry.2.Ends b → OutOfReach s.agenda s.batch b)
  | delayed (hentries : ∃ m : SessionData, m.now = s.now ∧ entries = [(m, .added b false)])
      (htime : 0 < b.rule.duration → time = s.now + b.rule.duration)
  | batched (hentry : ∃ entry ∈ entries, entry.2 = .added b true)

namespace Origin

theorem of_unended {time₀ : ℤ} (hle : time₀ ≤ time)
    (hwaits : WaitsUntil s.agenda s.batch s.now time₀ b)
    (hnone : ∀ entry ∈ entries, ¬ entry.2.Ends b) : Origin s entries time b :=
  .waited hle hwaits fun entry hentry hends ↦ absurd hends (hnone entry hentry)

theorem of_silent {time₀ : ℤ} (hle : time₀ ≤ time)
    (hwaits : WaitsUntil s.agenda s.batch s.now time₀ b) : Origin s [] time b :=
  .of_unended hle hwaits fun _ h ↦ absurd h List.not_mem_nil

/-- One event that ends no match. -/
theorem of_event {time₀ : ℤ} {m : SessionData} {event : AgendaEvent} (hle : time₀ ≤ time)
    (hwaits : WaitsUntil s.agenda s.batch s.now time₀ b) (hnone : ¬ event.Ends b) :
    Origin s [(m, event)] time b :=
  .of_unended hle hwaits fun _ hentry ↦ List.mem_singleton.mp hentry ▸ hnone

/-- The match of a hash ends, or the matches of a fact: what is still on the agenda is of another
match. -/
theorem of_ended {lost : ℕ → Prop} {m : SessionData} {event : AgendaEvent} {agenda' : Agenda}
    (hkeyed : s.agenda.Keyed) (hloses : s.agenda.Loses lost agenda')
    (hevent : (b.hashValue, b) ∈ s.agenda.agendaMap → event.Ends b → lost b.hashValue)
    (h : WaitsUntil agenda' s.batch s.now time b) : Origin s [(m, event)] time b := by
  obtain ⟨hwaits, hreach⟩ := h.of_loses hkeyed hloses
  refine .waited le_rfl hwaits fun entry hentry hends ↦ ?_
  cases List.mem_singleton.mp hentry
  rcases hreach with hdelayed | hbatch | ⟨hlost, hmem⟩
  · exact .inl hdelayed
  · exact .inr hbatch
  · exact absurd (hevent hmem hends) hlost

/-- A match begins. -/
theorem of_addActivation {a : Activation} {agenda' : Agenda} {m : SessionData}
    (hnow : m.now = s.now) (hsame : (s.addActivation kb a).agenda.SameActivations agenda')
    (h : WaitsUntil agenda' s.batch s.now time b) :
    Origin s (if s.isBlocked kb a then [] else [(m, .added a false)]) time b := by
  have h := h.congr hsame.map hsame.delayed
  unfold Session.addActivation at h
  split at h
  · next hblocked =>
    rw [if_pos hblocked]
    exact .of_silent le_rfl h
  · next hblocked =>
    rw [if_neg hblocked]
    rcases h.of_addWithDuration with h | ⟨rfl, htime⟩
    · exact .of_event le_rfl h id
    · exact .delayed ⟨m, hnow, rfl⟩ htime

end Origin

/-- An event of matches leaves the clock. -/
theorem MatchEvent.apply_now (e : MatchEvent) (s : Session) : (e.apply kb s).now = s.now := by
  have hbase : ∀ {s s' : Session}, s'.base = s.base → s'.now = s.now := by
    intro s s' hbase
    have hnow : s'.base.now = s.base.now := by rw [hbase]
    exact hnow
  cases e with
  | begins n rule bindings w =>
    refine hbase ?_
    simp only [MatchEvent.apply, applyAutoFocus_base, addActivation_base]
    rfl
  | batch n rule bindings wmes =>
    obtain ⟨hnew, -, -⟩ := batchMatches_silent kb n rule bindings wmes s
    show (terminalLeftBatch kb n rule bindings wmes s).now = s.now
    rw [terminalLeftBatch_eq]
    split
    · exact hbase hnew
    · exact hbase ((applyAutoFocus_base _).trans hnew)
  | ends | enters | leaves | focuses | clears => rfl

/-- Remembering a token at a terminal node leaves the agenda to the activation. -/
theorem addActivation_updateTerminal_sameActivations (n rule : ℕ) (w : TokenWME) (a : Activation)
    (s : Session) :
    (s.addActivation kb a).agenda.SameActivations
      (applyAutoFocus kb rule ((updateTerminal n (· ++ [w]) s).addActivation kb a)).agenda := by
  have hfocus := AgendaStep.applyAutoFocus_sameActivations kb rule
    ((updateTerminal n (· ++ [w]) s).addActivation kb a)
  have hagenda : ((updateTerminal n (· ++ [w]) s).addActivation kb a).agenda =
      (s.addActivation kb a).agenda := by
    have hblocked : (updateTerminal n (· ++ [w]) s).isBlocked kb a = s.isBlocked kb a := rfl
    unfold Session.addActivation
    rw [hblocked]
    split <;> rfl
  rwa [hagenda] at hfocus

/-- What an event of matches makes of what waits. -/
theorem MatchEvent.origin (e : MatchEvent) (hkeyed : s.agenda.Keyed)
    (hb : WaitsUntil (e.apply kb s).agenda s.batch s.now time b) :
    Origin s (e.entries kb s) time b := by
  cases e with
  | begins n r bindings w =>
    exact Origin.of_addActivation rfl (addActivation_updateTerminal_sameActivations n r w _ s) hb
  | batch n r bindings wmes =>
    obtain ⟨added, hentries, hgains⟩ := AgendaStep.gains_batch kb n r bindings wmes s
    have hevent : ∀ {event}, event ∈ added.map (.added · true) →
        ∃ entry ∈ (MatchEvent.batch n r bindings wmes).entries kb s, entry.2 = event := by
      intro event hevent
      exact List.mem_map.mp (hentries ▸ hevent)
    rcases hb.of_gains hgains with hb | ⟨hadded, -⟩
    · refine .of_unended le_rfl hb fun entry hentry hends ↦ ?_
      have hmem := List.mem_map_of_mem (f := Prod.snd) hentry
      rw [hentries] at hmem
      obtain ⟨a, -, ha⟩ := List.mem_map.mp hmem
      exact (show (AgendaEvent.added a true).Ends b from ha ▸ hends)
    · exact .batched (hevent (List.mem_map_of_mem (f := (AgendaEvent.added · true)) hadded))
  | ends n r bindings w =>
    refine Origin.of_ended hkeyed (Agenda.loses_remove _ _) (fun _ hends ↦ ?_) hb
    exact Eq.symm hends
  | enters fact => exact .of_event le_rfl (hb.congr rfl rfl) id
  | leaves fact =>
    exact Origin.of_ended hkeyed (Agenda.loses_removeActivationsWithFactId _ _ _)
      (fun hmem hends ↦ ⟨b, hmem, hends⟩) hb
  | focuses | clears => exact .of_silent le_rfl (hb.congr rfl rfl)

/-- **What waits after a step**: it waited before, out of the reach of what ended its match, or it
is new. -/
theorem CycleStep.origin (h : CycleStep kb s s') (hlogs : Logs s s' entries)
    (hclock : ∀ entry ∈ entries, ∀ now, entry.2 = .ticked now → entry.1.now ≤ now)
    (hkeyed : s.agenda.Keyed) (hb : WaitsUntil s'.agenda s'.batch s'.now time b) :
    Origin s entries time b := by
  cases h with
  | propagates hstep =>
    rw [hstep.batch] at hb
    cases hstep with
    | quiet hquiet =>
      rw [hlogs.unique (.none hquiet.log)]
      rw [hquiet.agenda, hquiet.now] at hb
      exact .of_silent le_rfl hb
    | event e _ =>
      rw [hlogs.unique (e.logs kb s)]
      rw [e.apply_now] at hb
      exact e.origin hkeyed hb
  | starts rule =>
    have hbase : (s.addActivation kb (activationOf kb rule none .root)).base = s.base :=
      addActivation_base s _
    have hbatch : (s.addActivation kb (activationOf kb rule none .root)).base.batch =
        s.base.batch := by rw [hbase]
    have hnow : (s.addActivation kb (activationOf kb rule none .root)).base.now =
        s.base.now := by rw [hbase]
    rw [hlogs.unique (s.addActivation_logs kb _)]
    have hb : WaitsUntil (s.addActivation kb (activationOf kb rule none .root)).agenda s.batch s.now
        time b := hbatch ▸ hnow ▸ hb
    exact Origin.of_addActivation rfl ⟨rfl, rfl, rfl⟩ hb
  | ticks now =>
    have hentries := hlogs.unique (.note (.ticked now) rfl)
    have hnow : s.now ≤ now := hclock (s.toSessionData, .ticked now)
      (hentries ▸ List.mem_singleton_self _) now rfl
    obtain ⟨time₀, hle, hb⟩ := hb.earlier hnow
    rw [hentries]
    exact .of_event hle hb id
  | seeds =>
    rw [hlogs.unique (.none rfl)]
    exact .of_silent le_rfl (hb.congr rfl rfl)
  | flushes now =>
    have hentries := hlogs.unique (.note (.ticked now) rfl)
    have hnow : s.now ≤ now := hclock (s.toSessionData, .ticked now)
      (hentries ▸ List.mem_singleton_self _) now rfl
    obtain ⟨time₀, hle, hb⟩ := hb.of_flushReadyDelayed hnow
    rw [hentries]
    exact .of_event hle hb id
  | pops maxItems hempty =>
    rw [hlogs.unique (.note .popped rfl)]
    refine .of_event le_rfl ?_ id
    rw [hempty]
    exact hb.of_popped (Agenda.popped hkeyed.unique maxItems)
  | requeues =>
    rw [hlogs.unique (.none rfl)]
    exact .of_silent le_rfl hb.of_requeue
  | @skips item batch hbatch _ =>
    rw [hlogs.unique (.note (.skipped item.activation) rfl)]
    exact .of_event le_rfl (hb.of_batch_subset (List.tail_subset s.batch)) id
  | @fires item batch hbatch _ =>
    rw [hlogs.unique (.note (.fired item.activation) rfl)]
    obtain ⟨hwaits, -⟩ := hb.of_loses hkeyed (AgendaStep.loses_enterFiring _ _)
    exact .of_event le_rfl (hwaits.of_batch_subset (List.tail_subset s.batch)) id
  | throws =>
    rw [hlogs.unique (.note .thrown rfl)]
    exact .of_event le_rfl (hb.of_batch_subset (List.nil_subset _)) id

theorem FireStep.origin (h : FireStep kb s s') (hlogs : Logs s s' entries)
    (hclock : ∀ entry ∈ entries, ∀ now, entry.2 = .ticked now → entry.1.now ≤ now)
    (hkeyed : s.agenda.Keyed) (hb : WaitsUntil s'.agenda s'.batch s'.now time b) :
    Origin s entries time b := by
  cases h with
  | cycle hstep => exact hstep.origin hlogs hclock hkeyed hb
  | clears =>
    rw [hlogs.unique (.none rfl)]
    exact .of_silent le_rfl (hb.congr rfl rfl)

end StepLemmas

/-! ### Timely executions -/

section Kept

variable {kb : KnowledgeBase} {s s' : Session} {entries : List (SessionData × AgendaEvent)}

theorem Moment.waits_iff {m : SessionData} (h : Moment s m) (b : Activation) :
    Waits m.agenda m.batch b ↔ Waits s.agenda s.batch b := by
  unfold Waits
  rw [h.batch, h.agenda.map, h.agenda.delayed]

theorem Moment.outOfReach_iff {m : SessionData} (h : Moment s m) (b : Activation) :
    OutOfReach m.agenda m.batch b ↔ OutOfReach s.agenda s.batch b := by
  unfold OutOfReach
  rw [h.batch, h.agenda.delayed]

/-- What is known between two steps: every activation of a rule with a duration that waits is due
when it can be executed, or its match has ended out of reach; and the executions were timely. -/
structure DelaysKept (s : Session) : Prop where
  keyed : s.agenda.Keyed
  waiting : ∀ {time b}, WaitsUntil s.agenda s.batch s.now time b → 0 < b.rule.duration →
    DueAt s.log b time ∨ EndedApart b s.log
  timely : Timely s.log

theorem DueAt.mono {past more : List (SessionData × AgendaEvent)} {b : Activation}
    {time time' : ℤ} (h : DueAt past b time) (hle : time ≤ time')
    (hmore : ∀ entry ∈ more, ¬ entry.2.Ends b) : DueAt (past ++ more) b time' := by
  obtain ⟨before, entry, after, heq, ⟨hadded, hdue⟩, hafter⟩ := h
  exact History.Stands.append ⟨before, entry, after, heq, ⟨hadded, hdue.trans hle⟩, hafter⟩ hmore

/-- What is executed is due. -/
theorem DelaysKept.due (h : DelaysKept s) {a : Activation}
    (hitem : ∃ item ∈ s.batch, item.activation = a) (hvalid : activationValid kb s a = true)
    (hrespected : DelayRespected kb s.log (s.toSessionData, .fired a)) (hduration : 0 < a.rule.duration) :
    DueAt s.log a s.now := by
  rcases h.waiting (.inr ⟨rfl, .inr hitem⟩) hduration with hdue | hended
  · exact hdue
  · -- what passes the check has its facts
    have hgone : activationValid kb s a = false :=
      hrespected.gone a (.inr (.inr hitem)) hduration hended
    rw [hvalid] at hgone
    cases hgone

/-- **One step keeps the delays.** -/
theorem DelaysKept.step (h : DelaysKept s) (hstep : FireStep kb s s')
    (hrespected : DelaysRespected kb s'.log) : DelaysKept s' := by
  obtain ⟨entries, hlogs, hagenda⟩ := hstep.anyAgendaStep
  rw [DelaysRespected, hlogs.log] at hrespected
  have hentry : ∀ entry ∈ entries, ∃ past, DelayRespected kb past entry := by
    intro entry hentry
    obtain ⟨before, _, -, hrule⟩ := hrespected.exists_of_mem hentry
    exact ⟨_, hrule⟩
  refine ⟨h.keyed.step hagenda, fun {time b} hb hduration ↦ ?_, ?_⟩
  · have horigin : Origin s entries time b := by
      refine hstep.origin hlogs (fun entry hmem now hnow ↦ ?_) h.keyed hb
      obtain ⟨past, hrule⟩ := hentry entry hmem
      exact hrule.clock now hnow
    rw [hlogs.log]
    cases horigin with
    | waited hle hwaits hreach =>
      have hstays : ∀ {entry}, entry ∈ entries → ¬¬ Waits entry.1.agenda entry.1.batch b :=
        fun hmem ↦ not_not.mpr (((hlogs.moments _ hmem).waits_iff b).mpr hwaits.waits)
      rcases h.waiting hwaits hduration with hdue | hended
      · by_cases hends : ∃ entry ∈ entries, entry.2.Ends b
        · -- the match ends, out of reach
          obtain ⟨entry, hmem, hends⟩ := hends
          have hout := ((hlogs.moments _ hmem).outOfReach_iff b).mpr (hreach entry hmem hends)
          obtain ⟨before, after, rfl⟩ := List.append_of_mem hmem
          refine .inr ⟨s.log ++ before, entry, after, by rw [List.append_assoc], ⟨hends, hout⟩, ?_⟩
          exact fun other hother ↦ hstays (List.mem_append_right _ (List.mem_cons_of_mem _ hother))
        · exact .inl (hdue.mono hle fun entry hmem hb ↦ hends ⟨entry, hmem, hb⟩)
      · exact .inr (hended.append fun entry hmem ↦ hstays hmem)
    | delayed hadded htime =>
      obtain ⟨m, hnow, rfl⟩ := hadded
      refine .inl ⟨s.log, _, [], rfl, ⟨⟨false, rfl⟩, ?_⟩, fun _ hmem ↦ absurd hmem List.not_mem_nil⟩
      rw [htime hduration, hnow]
    | batched hadded =>
      obtain ⟨entry, hmem, hadded⟩ := hadded
      obtain ⟨past, hrule⟩ := hentry entry hmem
      exact absurd hduration (hrule.batch b hadded)
  · rw [hlogs.log]
    cases hstep with
    | clears =>
      rw [hlogs.unique (.none rfl), List.append_nil]
      exact h.timely
    | cycle hstep =>
      rcases hstep.unfired_or_fires hlogs with hnone | ⟨item, batch, hbatch, hvalid, -, rfl⟩
      · refine h.timely.append fun entry hmem before a hfired ↦ ?_
        have hunfired := hnone entry hmem
        rw [hfired] at hunfired
        cases hunfired
      · obtain ⟨-, hrule⟩ := History.keeps_concat.mp hrespected
        refine History.keeps_concat.mpr ⟨h.timely, ?_⟩
        rintro _ ⟨⟩ hduration
        exact h.due ⟨item, hbatch ▸ List.mem_cons_self, rfl⟩ hvalid hrule hduration

end Kept

/-- **Delayed activations.** In every sequence of operations and of calls of `fire_all_rules` that
respects the delays, an activation of a rule with a duration is executed no earlier than that long
after its match has come into being, and not after the match has ended. -/
theorem executions_timely (kb : KnowledgeBase) (steps : ℕ) (heap : Heap) (ops : List EngineOp)
    {s : Session} (h : runEngine kb steps ops (newSession kb steps heap) = some s)
    (hrespected : DelaysRespected kb s.log) : Timely s.log := by
  have hstart : DelaysKept { heap := heap } := by
    refine ⟨.empty, ?_, History.keeps_nil⟩
    rintro time b (hb | ⟨-, ⟨hash, hb⟩ | ⟨item, hb, -⟩⟩) - <;> exact absurd hb List.not_mem_nil
  have hkept : DelaysKept s := (runEngine_run kb steps heap ops h).2.invariant
    (G := DelaysRespected kb) History.Keeps.append_left
    (fun hstep hlog hs ↦ hs.step hstep hlog) hrespected hstart
  exact hkept.timely

instance (b : Activation) (e : AgendaEvent) : Decidable (e.Ends b) :=
  match e with
  | .ended hash => inferInstanceAs (Decidable (hash = b.hashValue))
  | .left touches => inferInstanceAs (Decidable (touches b.token = true))
  | .added _ _ | .entered _ | .ticked _ | .popped | .fired _ | .skipped _ | .thrown =>
    isFalse id

/-- An entry that respects the delays in a plain way: whatever waits with a duration and whose match
has ended at any time has lost a fact. -/
def plainDelay (kb : KnowledgeBase) (past : List (SessionData × AgendaEvent))
    (entry : SessionData × AgendaEvent) : Bool :=
  (match entry.2 with
    | .ticked now => decide (entry.1.now ≤ now)
    | .added a true => decide (¬ 0 < a.rule.duration)
    | _ => true) &&
  (entry.1.agenda.activations ++ entry.1.batch.map PoppedActivationItem.activation).all fun b ↦
    decide (¬ 0 < b.rule.duration) || !activationValid kb entry.1.toSession b ||
      past.all fun earlier ↦ decide (¬ earlier.2.Ends b)

theorem delayRespected_of_plainDelay {kb : KnowledgeBase}
    {past : List (SessionData × AgendaEvent)} {entry : SessionData × AgendaEvent}
    (h : plainDelay kb past entry = true) : DelayRespected kb past entry := by
  obtain ⟨m, event⟩ := entry
  obtain ⟨hevent, hwaiting⟩ := (Bool.and_eq_true _ _).mp h
  refine ⟨?_, ?_, fun b hb hduration hended ↦ ?_⟩
  · rintro now rfl
    exact of_decide_eq_true hevent
  · rintro a rfl
    exact of_decide_eq_true hevent
  · have hmem : b ∈ m.agenda.activations ++ m.batch.map PoppedActivationItem.activation := by
      rcases hb with ⟨hash, hb⟩ | ⟨time, hb⟩ | ⟨item, hitem, rfl⟩
      · exact List.mem_append_left _ (List.mem_append_left _ (List.mem_map_of_mem (f := Prod.snd) hb))
      · exact List.mem_append_left _ (List.mem_append_right _ (List.mem_map_of_mem (f := Prod.snd) hb))
      · exact List.mem_append_right _ (List.mem_map_of_mem hitem)
    have hb := List.all_eq_true.mp hwaiting b hmem
    simp only [hduration, not_true_eq_false, decide_false, Bool.false_or, Bool.or_eq_true,
      Bool.not_eq_true', List.all_eq_true, decide_eq_true_eq] at hb
    refine hb.resolve_right fun hnone ↦ ?_
    obtain ⟨before, earlier, after, rfl, ⟨hends, -⟩, -⟩ := hended
    exact hnone earlier (List.mem_append_right _ List.mem_cons_self) hends

/-- The rules `A()`, which is executed after five milliseconds, and `B()`. -/
def lateBase : KnowledgeBase :=
  rulesBase [
    { name := "late", duration := 5, conditionGroups := [[{ factType := "A" }]] },
    { name := "quick", conditionGroups := [[{ factType := "B" }]] }]

/-- An `A` at the addresses `1` and `2`, and a `B` at every other address. -/
def lateHeap : Heap := fun p ↦ { type := if p ≤ 2 then "A" else "B" }

/-- A clock that stands still within a call. -/
def envAt (now : ℤ) : FireEnv := { idleEnv with clock := fun _ ↦ now }

/-- Two `A` are inserted, and two `B` in a batch; after two milliseconds rules are fired, then one `A`
goes, and after nine milliseconds rules are fired again. -/
def lateOps : List EngineOp :=
  [.session (.add 1), .session (.add 2), .session (.addFacts [3, 4]), .fire (envAt 2) (-1) 3,
    .session (.retract 2), .fire (envAt 9) (-1) 3]

def lateSession : Option Session := runEngine lateBase 1 lateOps (newSession lateBase 1 lateHeap)

/-- The executions with their times. -/
def executedAt (s : Session) : List (ℤ × TokenWME) :=
  s.log.filterMap fun
    | (m, .fired a) => some (m.now, a.token)
    | _ => none

/-- The batch is executed at once, and the `A` that is left in time. -/
theorem executions_timely_late :
    ∃ s, lateSession = some s ∧ executedAt s =
      [(2, .mk 4 .root 4), (2, .mk 3 .root 3), (9, .mk 1 .root 1)] ∧ Timely s.log := by
  have hrespected : ∀ s ∈ lateSession, History.Keeps (fun past entry ↦
      plainDelay lateBase past entry = true) s.log := by
    decide +kernel
  have hexecuted : ∀ s ∈ lateSession, executedAt s =
      [(2, .mk 4 .root 4), (2, .mk 3 .root 3), (9, .mk 1 .root 1)] := by
    decide +kernel
  obtain ⟨s, hs⟩ := Option.isSome_iff_exists.mp
    (show lateSession.isSome = true by decide +kernel)
  exact ⟨s, hs, hexecuted s hs, executions_timely lateBase 1 lateHeap lateOps hs
    ((hrespected s hs).mono fun _ _ ↦ delayRespected_of_plainDelay)⟩

/-- The rule `A() B()`, which is executed after five milliseconds. -/
def latePairBase : KnowledgeBase :=
  oneRuleBase { name := "pair", duration := 5,
                conditionGroups := [[{ factType := "A" }, { factType := "B" }]] }

/-- An `A` at address `1`, and a `B` at every other address. -/
def latePairHeap : Heap := fun p ↦ { type := if p = 1 then "A" else "B" }

/-- Whether what is fired has an entry of its hash that was added early enough. -/
def begunEarly (past : List (SessionData × AgendaEvent)) : SessionData × AgendaEvent → Bool
  | (m, .fired a) => decide (¬ 0 < a.rule.duration) || past.any fun
    | (m', .added b _) =>
      decide (b.hashValue = a.hashValue) && decide (m'.now + a.rule.duration ≤ m.now)
    | _ => false
  | _ => true

theorem Timely.begunEarly {log : List (SessionData × AgendaEvent)} (h : Timely log) :
    History.Keeps (fun past entry ↦ begunEarly past entry = true) log := by
  refine History.Keeps.mono h fun past entry hentry ↦ ?_
  obtain ⟨m, event⟩ := entry
  cases event with
  | fired a =>
    by_cases hduration : 0 < a.rule.duration
    · obtain ⟨before, ⟨m', event⟩, after, rfl, ⟨⟨batched, rfl⟩, hdue⟩, -⟩ := hentry a rfl hduration
      have hany : (before ++ (m', AgendaEvent.added a batched) :: after).any (fun
          | (m', .added b _) =>
            decide (b.hashValue = a.hashValue) && decide (m'.now + a.rule.duration ≤ m.now)
          | _ => false) = true :=
        List.any_eq_true.mpr ⟨_, List.mem_append_right _ List.mem_cons_self, by simpa using hdue⟩
      rw [RulesForge.begunEarly, hany, Bool.or_true]
    · simp [RulesForge.begunEarly, hduration]
  | _ => rfl

/-- **A batch executes a rule before its time**: an `A` is there, a `B` is inserted by `add_facts`, and
the call at the same time of the clock executes the rule. -/
theorem batched_executesEarly :
    ∃ s, runEngine latePairBase 1 [.session (.add 1), .session (.addFacts [2]), .fire idleEnv (-1) 2]
        (newSession latePairBase 1 latePairHeap) = some s ∧
      (∀ entry ∈ s.log, entry.1.now = 0) ∧ ¬ Timely s.log := by
  set run := runEngine latePairBase 1
    [.session (.add 1), .session (.addFacts [2]), .fire idleEnv (-1) 2]
    (newSession latePairBase 1 latePairHeap) with hrun
  have hends : ∀ s ∈ run, (∀ entry ∈ s.log, entry.1.now = 0) ∧
      ¬ History.Keeps (fun past entry ↦ begunEarly past entry = true) s.log := by
    decide +kernel
  obtain ⟨s, hs⟩ := Option.isSome_iff_exists.mp (show run.isSome = true by decide +kernel)
  exact ⟨s, hs, (hends s hs).1, fun h ↦ (hends s hs).2 h.begunEarly⟩

end RulesForge
