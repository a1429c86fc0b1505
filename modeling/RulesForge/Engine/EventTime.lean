import RulesForge.Library.AssocMap
import RulesForge.Library.History
import RulesForge.Rete.Window

/-!
# Windows on event time

A window over time in a session on event time: `insert_event_into`, `retract_from` and
`advance_event_time` (`src/engine/stateful_session.cpp`), as far as they concern one window.

The list of such a window is, after any history of events and watermarks, sorted by event time, and
it holds just the events that no watermark since their arrival has left behind by more than the
size of the window; the children have been told the same (`eventWindow_contents`). The window looks
at the front of its list only, so this rests on the order: an event that comes late is inserted in
its place, and leaves at once where the watermark has passed it already.
-/

namespace RulesForge

/-! ### The session -/

/-- What a caller does. `meanwhile` stands for what else goes on: fields change, and so does the
system clock. -/
inductive EventOperation where
  | insertEvent (fact : FactPtr) (eventTime : ℤ)
  | retract (fact : FactPtr)
  | advance (watermark : ℤ)
  | meanwhile (heap : Heap) (now : ℤ)

/-- The part of a session that a window reads, the window, and all that its children have been
told. The facts are the events in working memory: `insert_event_into` puts a fact there and notes
its event time, and `retract_from` removes both. -/
structure EventSession where
  heap : Heap
  now : ℤ
  eventTimes : List (FactPtr × ℤ) := []
  watermark : Option ℤ := none
  facts : List FactPtr := []
  sent : List Message := []

namespace EventSession

def readings (s : EventSession) : WindowReadings where
  heap := s.heap
  eventTimes := s.eventTimes
  eventTimeMode := true
  watermark := s.watermark
  now := s.now

/-- An outcome of the window in its session. -/
def put (s : EventSession) (outcome : List FactPtr × List Message) : EventSession :=
  { s with facts := outcome.1, sent := s.sent ++ outcome.2 }

variable (node : WindowNode)

/-- One operation. A watermark that moves backwards is refused. -/
def step (s : EventSession) : EventOperation → Option EventSession
  | .insertEvent fact eventTime =>
    let s := { s with eventTimes := AssocMap.insert fact eventTime s.eventTimes }
    some (s.put (node.rightActivate s.readings fact .assert s.facts))
  | .retract fact =>
    if AssocMap.contains fact s.eventTimes then
      let s := s.put (node.rightActivate s.readings fact .retract s.facts)
      some { s with eventTimes := AssocMap.erase fact s.eventTimes }
    else some s
  | .advance watermark =>
    if s.watermark.any (watermark < ·) then none
    else
      let s := { s with watermark := some watermark }
      some (s.put (node.evaluateExpiration s.readings s.facts))
  | .meanwhile heap now => some { s with heap := heap, now := now }

def run (start : EventSession) (operations : List EventOperation) : Option EventSession :=
  operations.foldlM (step node) start

end EventSession

/-! ### Histories -/

namespace EventOperation

/-- The watermarks of a history, oldest first. -/
def watermarks (operations : List EventOperation) : List ℤ :=
  operations.filterMap fun
    | .advance watermark => some watermark
    | _ => none

/-- The watermarks in force since a point of a history. -/
def inForce (before after : List EventOperation) : List ℤ :=
  (watermarks before).getLast?.toList ++ watermarks after

/-- An event that has been inserted with an event time and has not been retracted since. -/
def Live (operations : List EventOperation) (f : FactPtr) (t : ℤ) : Prop :=
  History.Stands (· = .insertEvent f t) (· = .retract f) operations

/-- A live event that every watermark since its arrival leaves in a window. -/
def InWindow (size : ℤ) (operations : List EventOperation) (f : FactPtr) (t : ℤ) : Prop :=
  ∃ before after, operations = before ++ .insertEvent f t :: after ∧ .retract f ∉ after ∧
    ∀ w ∈ inForce before after, w - t ≤ size

/-- Every event is a fact that is not live yet: `apply_events` makes a new fact for each. -/
def FreshEvents (operations : List EventOperation) : Prop :=
  History.Keeps (fun before operation ↦ ∀ f t, operation = .insertEvent f t →
    ∀ u, ¬Live before f u) operations

variable {size : ℤ} {operations : List EventOperation} {operation : EventOperation} {f : FactPtr}
  {t w : ℤ}

theorem watermarks_append (before after : List EventOperation) :
    watermarks (before ++ after) = watermarks before ++ watermarks after :=
  List.filterMap_append

theorem live_concat :
    Live (operations ++ [operation]) f t ↔
      operation = .insertEvent f t ∨ Live operations f t ∧ operation ≠ .retract f :=
  History.stands_concat

theorem inWindow_concat :
    InWindow size (operations ++ [operation]) f t ↔
      (operation = .insertEvent f t ∧ ∀ w ∈ (watermarks operations).getLast?, w - t ≤ size) ∨
        InWindow size operations f t ∧ operation ≠ .retract f ∧
          ∀ w ∈ watermarks [operation], w - t ≤ size := by
  have hsplit : ∀ {operations}, InWindow size operations f t ↔
      ∃ before a after, operations = before ++ a :: after ∧ a = .insertEvent f t ∧
        .retract f ∉ after ∧ ∀ w ∈ inForce before after, w - t ≤ size := by
    intro operations
    constructor
    · rintro ⟨before, after, heq, h⟩
      exact ⟨before, _, after, heq, rfl, h⟩
    · rintro ⟨before, _, after, heq, rfl, h⟩
      exact ⟨before, after, heq, h⟩
  rw [hsplit, hsplit, History.exists_split_concat (P := fun before a after ↦
    a = .insertEvent f t ∧ .retract f ∉ after ∧ ∀ w ∈ inForce before after, w - t ≤ size)]
  refine or_congr ?_ ?_
  · simp [inForce, watermarks]
  · -- the last operation comes after the insertion, with its watermark in force
    have hforce : ∀ before after, (∀ w ∈ inForce before (after ++ [operation]), w - t ≤ size) ↔
        (∀ w ∈ inForce before after, w - t ≤ size) ∧
          ∀ w ∈ watermarks [operation], w - t ≤ size := by
      intro before after
      unfold inForce
      rw [watermarks_append, ← List.append_assoc, List.forall_mem_append]
    constructor
    · rintro ⟨before, a, after, heq, ha, hretract, hw⟩
      obtain ⟨hw, hlast⟩ := (hforce before after).mp hw
      rw [List.mem_append, not_or, List.mem_singleton] at hretract
      exact ⟨⟨before, a, after, heq, ha, hretract.1, hw⟩, fun h ↦ hretract.2 h.symm, hlast⟩
    · rintro ⟨⟨before, a, after, heq, ha, hretract, hw⟩, hne, hlast⟩
      refine ⟨before, a, after, heq, ha, ?_, (hforce before after).mpr ⟨hw, hlast⟩⟩
      rw [List.mem_append, not_or, List.mem_singleton]
      exact ⟨hretract, hne.symm⟩

theorem InWindow.live (h : InWindow size operations f t) : Live operations f t := by
  obtain ⟨before, after, heq, hretract, -⟩ := h
  refine ⟨before, _, after, heq, rfl, ?_⟩
  rintro _ hmem rfl
  exact hretract hmem

/-- The last watermark is in force for every event. -/
theorem InWindow.last (h : InWindow size operations f t)
    (hw : w ∈ (watermarks operations).getLast?) : w - t ≤ size := by
  obtain ⟨before, after, rfl, -, hall⟩ := h
  refine hall w ?_
  have hwatermarks : watermarks (before ++ .insertEvent f t :: after) =
      watermarks before ++ watermarks after := watermarks_append _ _
  rw [hwatermarks, List.getLast?_append] at hw
  unfold inForce
  rw [List.mem_append, Option.mem_toList]
  cases hafter : (watermarks after).getLast? with
  | none =>
    rw [hafter] at hw
    exact .inl hw
  | some w' =>
    rw [hafter] at hw
    cases hw
    exact .inr (List.mem_of_getLast? hafter)

end EventOperation

/-- The children have been told that a fact came, and not that it left. -/
def SentAssert (sent : List Message) (f : FactPtr) : Prop :=
  History.Stands (· = (f, .assert)) (· = (f, .retract)) sent

theorem sentAssert_retracts {sent : List Message} {evicted : List FactPtr} {f : FactPtr} :
    SentAssert (sent ++ evicted.map (·, .retract)) f ↔ SentAssert sent f ∧ f ∉ evicted := by
  have hsets : ∀ m ∈ evicted.map fun g ↦ ((g, .retract) : Message), m ≠ (f, .assert) := by
    rintro m hm rfl
    obtain ⟨g, -, heq⟩ := List.mem_map.mp hm
    cases heq
  refine (History.stands_append hsets).trans (and_congr_right fun _ ↦ ?_)
  refine ⟨fun h hf ↦ h _ (List.mem_map_of_mem hf) rfl, ?_⟩
  rintro hnot m hm rfl
  obtain ⟨g, hg, heq⟩ := List.mem_map.mp hm
  cases heq
  exact hnot hg

/-! ### The window -/

section Window

variable {node : WindowNode} {r : WindowReadings} {facts : List FactPtr} {f : FactPtr} {t : ℤ}

theorem WindowReadings.insertionTime_eq (h : r.eventTimes.lookup f = some t) :
    r.insertionTime f = t := by
  unfold insertionTime
  rw [h, Option.getD_some]

theorem WindowReadings.evictionTime_eq (h : r.eventTimes.lookup f = some t) :
    r.evictionTime f = t := by
  unfold evictionTime
  rw [h, Option.getD_some]

/-- What a window over time keeps of a list in the order of time: what the watermark has not passed
by more than its size. -/
theorem mem_remaining_time (htype : node.info.type = .time) (hmode : r.eventTimeMode = true)
    (hsorted : facts.Pairwise fun f g ↦ r.evictionTime f ≤ r.evictionTime g) :
    f ∈ node.remaining r facts ↔
      f ∈ facts ∧ ∀ w ∈ r.watermark, w - r.evictionTime f ≤ node.info.value := by
  unfold WindowNode.remaining
  rw [htype, hmode]
  cases hw : r.watermark with
  | none => simp
  | some w =>
    have hcurrent : r.currentTime = w := by
      unfold WindowReadings.currentTime
      rw [hw, Option.getD_some]
    have hmono : facts.Pairwise fun f g ↦
        r.expired node.info.value g → r.expired node.info.value f := by
      refine hsorted.imp fun {f g} hle ↦ ?_
      unfold WindowReadings.expired
      rw [decide_eq_true_iff, decide_eq_true_iff]
      omega
    show f ∈ facts.dropWhile (r.expired node.info.value) ↔ _
    rw [SortedQueue.dropWhile_eq_filter_not hmono, List.mem_filter]
    refine and_congr_right fun _ ↦ ?_
    unfold WindowReadings.expired
    rw [hcurrent]
    simp

end Window

/-! ### The invariant -/

namespace EventSession

open EventOperation

/-- What a history leaves. -/
structure Follows (node : WindowNode) (operations : List EventOperation) (s : EventSession) :
    Prop where
  watermark : s.watermark = (EventOperation.watermarks operations).getLast?
  times : ∀ f t, s.eventTimes.lookup f = some t ↔ Live operations f t
  facts : ∀ f, f ∈ s.facts ↔ ∃ t, InWindow node.info.value operations f t
  nodup : s.facts.Nodup
  sorted : s.facts.Pairwise fun f g ↦ ∀ t u, s.eventTimes.lookup f = some t →
    s.eventTimes.lookup g = some u → t ≤ u
  sent : ∀ f, SentAssert s.sent f ↔ f ∈ s.facts

variable {node : WindowNode} {operations : List EventOperation} {s s' : EventSession}

/-- A listed fact has the event time it was inserted with. -/
theorem Follows.lookup (h : Follows node operations s) {f : FactPtr} {t : ℤ}
    (hf : InWindow node.info.value operations f t) : s.eventTimes.lookup f = some t :=
  (h.times f t).mpr hf.live

theorem follows_start (heap : Heap) (now : ℤ) :
    Follows node [] { heap := heap, now := now } where
  watermark := rfl
  times _ _ := ⟨nofun, fun h ↦ absurd h History.not_stands_nil⟩
  facts _ := ⟨nofun, fun ⟨_, h⟩ ↦ absurd h.live History.not_stands_nil⟩
  nodup := List.nodup_nil
  sorted := List.Pairwise.nil
  sent _ := ⟨fun h ↦ absurd h History.not_stands_nil, nofun⟩

/-! ### Steps -/

section Steps

variable {f : FactPtr} {t : ℤ}

/-- The messages of an expiration leave the children with what it keeps. -/
theorem sentAssert_expire {sent : List Message} {facts : List FactPtr} (r : WindowReadings)
    (hnodup : facts.Nodup) (hsent : SentAssert sent f ↔ f ∈ facts) :
    SentAssert (sent ++ (node.evaluateExpiration r facts).2) f ↔ f ∈ node.remaining r facts := by
  obtain ⟨evicted, hfacts, hmessages⟩ := node.evaluateExpiration_spec r facts
  rw [hmessages, sentAssert_retracts, hsent, ← WindowNode.mem_remaining_iff hnodup hfacts]

/-- The order by event time is that by the time of eviction. -/
theorem Follows.sorted_eviction (h : Follows node operations s) (r : WindowReadings)
    (htimes : ∀ f ∈ s.facts, r.eventTimes.lookup f = s.eventTimes.lookup f) :
    s.facts.Pairwise fun f g ↦ r.evictionTime f ≤ r.evictionTime g := by
  refine h.sorted.imp_of_mem fun {f g} hf hg hle ↦ ?_
  obtain ⟨t, ht⟩ := (h.facts f).mp hf
  obtain ⟨u, hu⟩ := (h.facts g).mp hg
  rw [r.evictionTime_eq ((htimes f hf).trans (h.lookup ht)),
    r.evictionTime_eq ((htimes g hg).trans (h.lookup hu))]
  exact hle t u (h.lookup ht) (h.lookup hu)

theorem Follows.advance (h : Follows node operations s) (htype : node.info.type = .time) {w : ℤ}
    (hw : ∀ w' ∈ s.watermark, w' ≤ w) :
    ∃ s', step node s (.advance w) = some s' ∧
      Follows node (operations ++ [.advance w]) s' := by
  have hnext : ¬s.watermark.any (w < ·) := by
    rw [Option.any_eq_true]
    rintro ⟨w', hmem, hlt⟩
    have hle := hw w' hmem
    have hlt : w < w' := of_decide_eq_true hlt
    omega
  set r : WindowReadings := { s.readings with watermark := some w } with hr
  have hremaining := fun f ↦ mem_remaining_time (f := f) htype (show r.eventTimeMode = true from rfl)
    (h.sorted_eviction r fun _ _ ↦ rfl)
  refine ⟨_, if_neg hnext, ?_, ?_, ?_, ?_, ?_, ?_⟩
  · show some w = _
    rw [watermarks_append]
    exact List.getLast?_concat.symm
  · intro f t
    refine (h.times f t).trans (live_concat.trans ?_).symm
    simp
  · intro f
    show f ∈ (node.evaluateExpiration r s.facts).1 ↔ _
    rw [node.evaluateExpiration_fst, hremaining, h.facts]
    constructor
    · rintro ⟨⟨t, ht⟩, hall⟩
      have hle := hall w rfl
      rw [r.evictionTime_eq (h.lookup ht)] at hle
      exact ⟨t, inWindow_concat.mpr
        (.inr ⟨ht, nofun, by simpa [EventOperation.watermarks] using hle⟩)⟩
    · rintro ⟨t, ht⟩
      rcases inWindow_concat.mp ht with ⟨heq, -⟩ | ⟨ht, -, hall⟩
      · cases heq
      · refine ⟨⟨t, ht⟩, ?_⟩
        rintro w' ⟨⟩
        rw [r.evictionTime_eq (h.lookup ht)]
        exact hall w (by simp [EventOperation.watermarks])
  · show (node.evaluateExpiration r s.facts).1.Nodup
    rw [node.evaluateExpiration_fst]
    exact h.nodup.sublist (node.remaining_sublist r _)
  · show (node.evaluateExpiration r s.facts).1.Pairwise _
    rw [node.evaluateExpiration_fst]
    exact h.sorted.sublist (node.remaining_sublist r _)
  · intro f
    show SentAssert (s.sent ++ (node.evaluateExpiration r s.facts).2) f ↔
      f ∈ (node.evaluateExpiration r s.facts).1
    rw [node.evaluateExpiration_fst]
    exact sentAssert_expire r h.nodup (h.sent f)

theorem Follows.retract (h : Follows node operations s) (f : FactPtr) :
    ∃ s', step node s (.retract f) = some s' ∧ Follows node (operations ++ [.retract f]) s' := by
  -- whether or not the session knows the fact, these are the ways it follows the retraction
  have hfollows : ∀ s' : EventSession, s'.watermark = s.watermark →
      (∀ g t, s'.eventTimes.lookup g = some t ↔ s.eventTimes.lookup g = some t ∧ g ≠ f) →
      s'.facts = s.facts.erase f →
      (∀ g, SentAssert s'.sent g ↔ SentAssert s.sent g ∧ g ≠ f) →
      Follows node (operations ++ [.retract f]) s' := by
    intro s' hwatermark htimes hfacts hsent
    refine ⟨?_, fun g t ↦ ?_, fun g ↦ ?_, ?_, ?_, fun g ↦ ?_⟩
    · rw [hwatermark, h.watermark, watermarks_append]
      show _ = (EventOperation.watermarks operations ++ []).getLast?
      rw [List.append_nil]
    · rw [htimes, h.times, live_concat]
      simp [eq_comm]
    · rw [hfacts, h.nodup.mem_erase_iff, h.facts]
      constructor
      · rintro ⟨hne, t, ht⟩
        exact ⟨t, inWindow_concat.mpr (.inr ⟨ht, by simpa using Ne.symm hne, nofun⟩)⟩
      · rintro ⟨t, ht⟩
        rcases inWindow_concat.mp ht with ⟨heq, -⟩ | ⟨ht, hne, -⟩
        · cases heq
        · exact ⟨fun heq ↦ hne (by rw [heq]), t, ht⟩
    · rw [hfacts]
      exact h.nodup.erase f
    · rw [hfacts]
      refine (h.sorted.sublist List.erase_sublist).imp fun hle t u ht hu ↦ ?_
      exact hle t u ((htimes _ _).mp ht).1 ((htimes _ _).mp hu).1
    · rw [hsent, h.sent, hfacts, h.nodup.mem_erase_iff, and_comm]
  have hnone : f ∉ s.facts → ∀ g, SentAssert s.sent g ↔ SentAssert s.sent g ∧ g ≠ f := by
    intro hf g
    rw [iff_self_and, h.sent]
    rintro hg rfl
    exact hf hg
  by_cases hknown : AssocMap.contains f s.eventTimes = true
  · have htimes : ∀ g t, (AssocMap.erase f s.eventTimes).lookup g = some t ↔
        s.eventTimes.lookup g = some t ∧ g ≠ f := by
      intro g t
      by_cases hg : g = f
      · rw [hg, AssocMap.lookup_erase_self]
        simp
      · rw [AssocMap.lookup_erase_ne hg]
        simp [hg]
    have hretract : node.rightActivate s.readings f .retract s.facts =
        if f ∈ s.facts then (s.facts.erase f, [(f, .retract)]) else (s.facts, []) := rfl
    refine ⟨_, if_pos hknown, hfollows _ rfl htimes ?_ fun g ↦ ?_⟩
    · show (node.rightActivate s.readings f .retract s.facts).1 = _
      rw [hretract]
      by_cases hf : f ∈ s.facts
      · rw [if_pos hf]
      · rw [if_neg hf, List.erase_of_not_mem hf]
    · show SentAssert (s.sent ++ (node.rightActivate s.readings f .retract s.facts).2) g ↔ _
      rw [hretract]
      by_cases hf : f ∈ s.facts
      · rw [if_pos hf]
        show SentAssert (s.sent ++ [f].map (·, .retract)) g ↔ _
        rw [sentAssert_retracts, List.mem_singleton]
      · rw [if_neg hf]
        show SentAssert (s.sent ++ []) g ↔ _
        rw [List.append_nil]
        exact hnone hf g
  · have hlookup : s.eventTimes.lookup f = none :=
      AssocMap.lookup_eq_none_iff.mpr fun t hin ↦ hknown (AssocMap.contains_iff.mpr ⟨t, hin⟩)
    have hf : f ∉ s.facts := by
      intro hf
      obtain ⟨t, ht⟩ := (h.facts f).mp hf
      have hsome := h.lookup ht
      rw [hlookup] at hsome
      cases hsome
    refine ⟨s, if_neg hknown, hfollows s rfl (fun g t ↦ ?_) (List.erase_of_not_mem hf).symm
      (hnone hf)⟩
    rw [iff_self_and]
    rintro hg rfl
    rw [hlookup] at hg
    cases hg

theorem Follows.meanwhile (h : Follows node operations s) (heap : Heap) (now : ℤ) :
    Follows node (operations ++ [.meanwhile heap now]) { s with heap := heap, now := now } where
  watermark := by
    rw [watermarks_append]
    show s.watermark = (EventOperation.watermarks operations ++ []).getLast?
    rw [List.append_nil, h.watermark]
  times f t := by
    refine (h.times f t).trans (live_concat.trans ?_).symm
    simp
  facts f := by
    refine (h.facts f).trans (exists_congr fun t ↦ (inWindow_concat.trans ?_).symm)
    simp [EventOperation.watermarks]
  nodup := h.nodup
  sorted := h.sorted
  sent := h.sent

/-- A new event, in its place in the list and then, if the watermark has not passed it, for the
children too. -/
theorem Follows.insertEvent (h : Follows node operations s) (htype : node.info.type = .time)
    (hfresh : ∀ u, ¬Live operations f u) :
    ∃ s', step node s (.insertEvent f t) = some s' ∧
      Follows node (operations ++ [.insertEvent f t]) s' := by
  have hnot : f ∉ s.facts := fun hf ↦
    let ⟨u, hu⟩ := (h.facts f).mp hf
    hfresh u hu.live
  set times := AssocMap.insert f t s.eventTimes with htimes
  set r : WindowReadings := { s.readings with eventTimes := times } with hr
  have hnew : times.lookup f = some t := AssocMap.lookup_insert_self f t _
  have hold : ∀ g ∈ s.facts, times.lookup g = s.eventTimes.lookup g := fun g hg ↦
    AssocMap.lookup_insert_ne (fun heq ↦ hnot (by rwa [← heq])) t _
  -- the new list is sorted by the times of insertion, which are the event times
  set inserted := node.insertFact r f s.facts with hinserted
  have hperm : inserted.Perm (f :: s.facts) := node.insertFact_perm r s.facts f
  have hnodup : inserted.Nodup := hperm.nodup_iff.mpr (List.nodup_cons.mpr ⟨hnot, h.nodup⟩)
  have hmem : ∀ g, g ∈ inserted ↔ g = f ∨ g ∈ s.facts := fun g ↦ hperm.mem_iff.trans List.mem_cons
  have hlookup : ∀ g ∈ inserted, ∃ u, times.lookup g = some u ∧
      (g = f ∧ u = t ∨ InWindow node.info.value operations g u) := by
    intro g hg
    rcases (hmem g).mp hg with rfl | hg
    · exact ⟨t, hnew, .inl ⟨rfl, rfl⟩⟩
    · obtain ⟨u, hu⟩ := (h.facts g).mp hg
      exact ⟨u, (hold g hg).trans (h.lookup hu), .inr hu⟩
  have hsorted : inserted.Pairwise fun g k ↦ r.insertionTime g ≤ r.insertionTime k := by
    have hfacts : s.facts.Pairwise fun g k ↦ r.insertionTime g ≤ r.insertionTime k := by
      refine h.sorted.imp_of_mem fun {g k} hg hk hle ↦ ?_
      obtain ⟨t, ht⟩ := (h.facts g).mp hg
      obtain ⟨u, hu⟩ := (h.facts k).mp hk
      rw [r.insertionTime_eq ((hold g hg).trans (h.lookup ht)),
        r.insertionTime_eq ((hold k hk).trans (h.lookup hu))]
      exact hle t u (h.lookup ht) (h.lookup hu)
    have hinsert := SortedQueue.pairwise_insertIdx_upperBound (a := f) hfacts
    rw [hinserted]
    unfold WindowNode.insertFact
    rw [htype]
    exact hinsert
  have heviction : inserted.Pairwise fun g k ↦ r.evictionTime g ≤ r.evictionTime k := by
    refine hsorted.imp_of_mem fun {g k} hg hk hle ↦ ?_
    obtain ⟨u, hu, -⟩ := hlookup g hg
    obtain ⟨v, hv, -⟩ := hlookup k hk
    rw [r.insertionTime_eq hu, r.insertionTime_eq hv] at hle
    rwa [r.evictionTime_eq hu, r.evictionTime_eq hv]
  have hremaining := fun g ↦
    mem_remaining_time (f := g) htype (show r.eventTimeMode = true from rfl) heviction
  have hfirst : (node.rightActivate r f .assert s.facts).1 = node.remaining r inserted :=
    node.evaluateExpiration_fst r inserted
  refine ⟨_, rfl, ?_, ?_, ?_, ?_, ?_, ?_⟩
  · show s.watermark = _
    rw [h.watermark, watermarks_append]
    show _ = (EventOperation.watermarks operations ++ []).getLast?
    rw [List.append_nil]
  · intro g u
    show times.lookup g = some u ↔ _
    rw [live_concat, EventOperation.insertEvent.injEq]
    by_cases hg : g = f
    · subst hg
      rw [hnew, Option.some.injEq]
      simp [hfresh u]
    · rw [AssocMap.lookup_insert_ne hg, h.times]
      simp [Ne.symm hg]
  · intro g
    show g ∈ (node.rightActivate r f .assert s.facts).1 ↔ _
    rw [hfirst, hremaining]
    show (g ∈ inserted ∧ ∀ w ∈ s.watermark, w - r.evictionTime g ≤ node.info.value) ↔ _
    rw [h.watermark]
    constructor
    · rintro ⟨hg, hall⟩
      obtain ⟨u, hu, hcase⟩ := hlookup g hg
      rw [r.evictionTime_eq hu] at hall
      refine ⟨u, inWindow_concat.mpr ?_⟩
      rcases hcase with ⟨rfl, rfl⟩ | hold
      · exact .inl ⟨rfl, hall⟩
      · exact .inr ⟨hold, nofun, nofun⟩
    · rintro ⟨u, hu⟩
      rcases inWindow_concat.mp hu with ⟨heq, hall⟩ | ⟨hu, -, -⟩
      · cases heq
        rw [r.evictionTime_eq hnew]
        exact ⟨(hmem f).mpr (.inl rfl), hall⟩
      · have hg : g ∈ s.facts := (h.facts g).mpr ⟨u, hu⟩
        rw [r.evictionTime_eq ((hold g hg).trans (h.lookup hu))]
        exact ⟨(hmem g).mpr (.inr hg), fun w hw ↦ hu.last hw⟩
  · show (node.rightActivate r f .assert s.facts).1.Nodup
    rw [hfirst]
    exact hnodup.sublist (node.remaining_sublist r _)
  · show (node.rightActivate r f .assert s.facts).1.Pairwise _
    rw [hfirst]
    refine (hsorted.sublist (node.remaining_sublist r _)).imp fun hle t u ht hu ↦ ?_
    rwa [r.insertionTime_eq ht, r.insertionTime_eq hu] at hle
  · intro g
    obtain ⟨evicted, hfacts, hsent⟩ := node.rightActivate_assert_spec r s.facts f
    have hkept := fun g ↦ WindowNode.mem_remaining_iff (g := g) hnodup hfacts
    show SentAssert (s.sent ++ (node.rightActivate r f .assert s.facts).2) g ↔
      g ∈ (node.rightActivate r f .assert s.facts).1
    rw [hfirst, hsent, hkept g, hmem g]
    by_cases hin : f ∈ node.remaining r inserted
    · have hstays := ((hkept f).mp hin).2
      rw [if_pos hin, ← List.append_assoc]
      refine History.stands_concat.trans ?_
      show _ ∨ SentAssert (s.sent ++ evicted.map (·, .retract)) g ∧ _ ↔ _
      rw [sentAssert_retracts, h.sent]
      constructor
      · rintro (heq | ⟨⟨hg, hev⟩, -⟩)
        · cases heq
          exact ⟨.inl rfl, hstays⟩
        · exact ⟨.inr hg, hev⟩
      · rintro ⟨rfl | hg, hev⟩
        · exact .inl rfl
        · exact .inr ⟨⟨hg, hev⟩, nofun⟩
    · have hleaves : f ∈ evicted := by
        by_contra hev
        exact hin ((hkept f).mpr ⟨(hmem f).mpr (.inl rfl), hev⟩)
      rw [if_neg hin, sentAssert_retracts, h.sent]
      refine ⟨fun hg ↦ ⟨.inr hg.1, hg.2⟩, ?_⟩
      rintro ⟨rfl | hg, hev⟩
      · exact absurd hleaves hev
      · exact ⟨hg, hev⟩

end Steps

/-! ### Runs -/

/-- The session after a history whose events are fresh and whose watermarks do not decrease. -/
theorem exists_follows_run (htype : node.info.type = .time) (heap : Heap) (now : ℤ)
    (hfresh : FreshEvents operations)
    (hwatermarks : (EventOperation.watermarks operations).Pairwise (· ≤ ·)) :
    ∃ s, run node { heap := heap, now := now } operations = some s ∧
      Follows node operations s := by
  induction operations using List.reverseRecOn with
  | nil => exact ⟨_, rfl, follows_start heap now⟩
  | append_singleton operations operation ih =>
    rw [watermarks_append, List.pairwise_append] at hwatermarks
    obtain ⟨hinit, hlast⟩ := History.keeps_concat.mp hfresh
    obtain ⟨s, hrun, hs⟩ := ih hinit hwatermarks.1
    have hstep : ∀ s', step node s operation = some s' →
        run node { heap := heap, now := now } (operations ++ [operation]) = some s' := by
      intro s' hs'
      have hconcat : run node { heap := heap, now := now } (operations ++ [operation]) =
          (run node { heap := heap, now := now } operations).bind
            fun s ↦ run node s [operation] := List.foldlM_append
      have hone : run node s [operation] = step node s operation := by
        unfold run
        rw [List.foldlM_cons]
        exact bind_pure _
      rw [hconcat, hrun, Option.bind_some, hone, hs']
    cases operation with
    | insertEvent f t =>
      obtain ⟨s', hs', hfollows⟩ := hs.insertEvent (t := t) htype (hlast f t rfl)
      exact ⟨s', hstep s' hs', hfollows⟩
    | retract f =>
      obtain ⟨s', hs', hfollows⟩ := hs.retract f
      exact ⟨s', hstep s' hs', hfollows⟩
    | advance w =>
      have hle : ∀ w' ∈ s.watermark, w' ≤ w := by
        intro w' hw'
        rw [hs.watermark] at hw'
        exact hwatermarks.2.2 w' (List.mem_of_getLast? hw') w (by simp [EventOperation.watermarks])
      obtain ⟨s', hs', hfollows⟩ := hs.advance htype hle
      exact ⟨s', hstep s' hs', hfollows⟩
    | meanwhile heap' now' => exact ⟨_, hstep _ rfl, hs.meanwhile heap' now'⟩

/-- **The contents of a window on event time.** After every history of fresh events, retractions
and watermarks that do not decrease, the list is sorted by event time, it holds the live events
that no watermark since their arrival has passed by more than the size of the window, each once,
and those are the events that the children have been told of and not told to drop. -/
theorem eventWindow_contents (node : WindowNode) (htype : node.info.type = .time) (heap : Heap)
    (now : ℤ) (operations : List EventOperation) (hfresh : FreshEvents operations)
    (hwatermarks : (EventOperation.watermarks operations).Pairwise (· ≤ ·)) :
    ∃ s, run node { heap := heap, now := now } operations = some s ∧
      (s.facts.Pairwise fun f g ↦ ∀ t u, Live operations f t → Live operations g u → t ≤ u) ∧
      s.facts.Nodup ∧
      (∀ f, f ∈ s.facts ↔ ∃ t, InWindow node.info.value operations f t) ∧
      ∀ f, SentAssert s.sent f ↔ ∃ t, InWindow node.info.value operations f t := by
  obtain ⟨s, hrun, hs⟩ := exists_follows_run htype heap now hfresh hwatermarks
  refine ⟨s, hrun, ?_, hs.nodup, hs.facts, fun f ↦ (hs.sent f).trans (hs.facts f)⟩
  exact hs.sorted.imp fun hle t u ht hu ↦
    hle t u ((hs.times _ _).mpr ht) ((hs.times _ _).mpr hu)

/-- An event, an event that comes later but was earlier, and a watermark that leaves the second one
behind a window of five milliseconds. -/
def lateEvent : List EventOperation :=
  [.insertEvent 1 10, .insertEvent 2 6, .advance 12]

theorem eventWindow_contents_lateEvent :
    ∃ s, run ⟨⟨.time, 5⟩⟩ { heap := fun _ ↦ { type := "Event" }, now := 0 } lateEvent = some s ∧
      s.facts = [1] ∧ ∀ f, f ∈ s.facts ↔ ∃ t, InWindow 5 lateEvent f t := by
  have hfresh : FreshEvents lateEvent := by
    have hfirst : FreshEvents ([] ++ [.insertEvent 1 10]) :=
      History.keeps_concat.mpr ⟨History.keeps_nil, fun f t _ u h ↦ History.not_stands_nil h⟩
    have hsecond : FreshEvents ([.insertEvent 1 10] ++ [.insertEvent 2 6]) := by
      refine History.keeps_concat.mpr ⟨hfirst, ?_⟩
      rintro f t ⟨⟩ u h
      have h : Live ([] ++ [.insertEvent 1 10]) 2 u := h
      rcases live_concat.mp h with heq | ⟨h, -⟩
      · cases heq
      · exact History.not_stands_nil h
    show FreshEvents ([.insertEvent 1 10, .insertEvent 2 6] ++ [.advance 12])
    exact History.keeps_concat.mpr ⟨hsecond, nofun⟩
  obtain ⟨s, hrun, -, -, hfacts, -⟩ := eventWindow_contents ⟨⟨.time, 5⟩⟩ rfl
    (fun _ ↦ { type := "Event" }) 0 lateEvent hfresh (by decide)
  refine ⟨s, hrun, ?_, hfacts⟩
  cases hrun
  decide

end EventSession

end RulesForge
