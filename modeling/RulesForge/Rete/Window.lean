import RulesForge.Rete.Activation
import RulesForge.Rete.QueryNetwork
import RulesForge.Library.SortedQueue

/-!
# Window nodes

`WindowNode` (`src/rete/rete_node.cpp`) keeps the last facts that came to it, so many of them or
those of the last milliseconds, and tells its children which facts come and go. Its memory is the
list of the facts it holds; an activation gives the new list and the **messages** to the children,
every child getting the same ones in the same order.

What an activation or a watermark leaves of a list is `WindowNode.remaining`, and the facts that
leave are a front of the list (`WindowNode.evaluateExpiration_spec`).
-/

namespace RulesForge

/-! ### The node -/

structure WindowNode where
  info : ParsedWindow

/-- What is sent to the children of a node. -/
abbrev Message := FactPtr × PropagationType

/-- What a window reads of the facts, of the session and of the system clock. -/
structure WindowReadings where
  heap : Heap
  /-- `fact_event_times_ms_` -/
  eventTimes : List (FactPtr × ℤ) := []
  eventTimeMode : Bool := false
  watermark : Option ℤ := none
  now : ℤ := 0

namespace WindowReadings

variable (r : WindowReadings)

/-- The `timestamp` field of a fact, where it holds an `int64_t`. -/
def timestamp (fact : FactPtr) : Option ℤ :=
  match getField r.heap fact "timestamp" with
  | some (.int64 t) => some t
  | _ => none

/-- The time a fact is inserted at. -/
def insertionTime (fact : FactPtr) : ℤ :=
  (r.eventTimes.lookup fact).getD ((r.timestamp fact).getD (2 ^ 63 - 1))

/-- The watermark, or the system clock. -/
def currentTime : ℤ :=
  r.watermark.getD r.now

/-- The time a fact is evicted by. -/
def evictionTime (fact : FactPtr) : ℤ :=
  (r.eventTimes.lookup fact).getD ((r.timestamp fact).getD r.currentTime)

/-- Whether a fact is older than a window over time allows. -/
def expired (size : ℤ) (fact : FactPtr) : Bool :=
  decide (size < r.currentTime - r.evictionTime fact)

end WindowReadings

/-- The loop of `evaluate_expiration`: facts leave from the front while `due` holds of the first
fact and of the number of facts, and every child is told. -/
def evictFront (due : FactPtr → ℕ → Bool) : List FactPtr → List FactPtr × List Message
  | [] => ([], [])
  | f :: facts =>
    if due f (facts.length + 1) then
      let (kept, messages) := evictFront due facts
      (kept, (f, .retract) :: messages)
    else (f :: facts, [])

namespace WindowNode

variable (node : WindowNode) (r : WindowReadings)

/-- The number of facts a window over a length holds: a `static_cast<size_t>`. -/
def capacity : ℕ :=
  (node.info.value % 2 ^ 64).toNat

/-- `WindowNode::evaluate_expiration`. The number it returns is the number of messages. -/
def evaluateExpiration (facts : List FactPtr) : List FactPtr × List Message :=
  match node.info.type with
  | .length => evictFront (fun _ n ↦ decide (node.capacity < n)) facts
  | .time =>
    if r.eventTimeMode && r.watermark.isNone then (facts, [])
    else evictFront (fun f _ ↦ r.expired node.info.value f) facts

/-- The list with a new fact: in a window over time behind the facts of its time. -/
def insertFact (fact : FactPtr) (facts : List FactPtr) : List FactPtr :=
  match node.info.type with
  | .time =>
    let above g := decide (r.insertionTime fact < r.insertionTime g)
    facts.insertIdx (SortedQueue.upperBound above facts) fact
  | .length => facts ++ [fact]

/-- `WindowNode::right_activate`. -/
def rightActivate (fact : FactPtr) (type : PropagationType) (facts : List FactPtr) :
    List FactPtr × List Message :=
  match type with
  | .retract =>
    if fact ∈ facts then (facts.erase fact, [(fact, .retract)]) else (facts, [])
  | .assert =>
    let (facts, messages) := node.evaluateExpiration r (node.insertFact r fact facts)
    (facts, if fact ∈ facts then messages ++ [(fact, .assert)] else messages)
  | .modify =>
    let (facts, messages) := node.evaluateExpiration r facts
    (facts, messages ++ [(fact, .modify)])

end WindowNode

/-! ### Eviction -/

section Eviction

variable {due : FactPtr → ℕ → Bool} {facts : List FactPtr}

/-- What leaves is the front of the list, and the children are told of each fact that does. -/
theorem evictFront_spec :
    ∃ evicted, facts = evicted ++ (evictFront due facts).1 ∧
      (evictFront due facts).2 = evicted.map (·, .retract) := by
  induction facts with
  | nil => exact ⟨[], rfl, rfl⟩
  | cons f facts ih =>
    by_cases h : due f (facts.length + 1)
    · obtain ⟨evicted, hfacts, hsent⟩ := ih
      refine ⟨f :: evicted, ?_, ?_⟩
      · rw [evictFront, if_pos h, List.cons_append, ← hfacts]
      · rw [evictFront, if_pos h, List.map_cons, ← hsent]
    · exact ⟨[], by rw [evictFront, if_neg h, List.nil_append],
        by rw [evictFront, if_neg h, List.map_nil]⟩

theorem evictFront_eq_dropWhile {p : FactPtr → Bool} :
    (evictFront (fun f _ ↦ p f) facts).1 = facts.dropWhile p := by
  induction facts with
  | nil => rfl
  | cons f facts ih =>
    by_cases h : p f
    · rw [evictFront, if_pos h, List.dropWhile_cons_of_pos h, ih]
    · rw [evictFront, if_neg h, List.dropWhile_cons_of_neg h]

theorem evictFront_eq_drop {capacity : ℕ} :
    (evictFront (fun _ n ↦ decide (capacity < n)) facts).1 =
      facts.drop (facts.length - capacity) := by
  induction facts with
  | nil => simp [evictFront]
  | cons f facts ih =>
    rw [evictFront, List.length_cons]
    by_cases h : capacity < facts.length + 1
    · rw [if_pos (decide_eq_true h), ih, show facts.length + 1 - capacity =
        (facts.length - capacity) + 1 by omega, List.drop_succ_cons]
    · rw [if_neg (by simpa using h), show facts.length + 1 - capacity = 0 by omega, List.drop_zero]

end Eviction

namespace WindowNode

variable (node : WindowNode) (r : WindowReadings) (facts : List FactPtr)

/-- The facts of a list that a window may keep: the last ones, or those from the first that is
not expired on. -/
def remaining : List FactPtr :=
  match node.info.type with
  | .length => facts.drop (facts.length - node.capacity)
  | .time =>
    if r.eventTimeMode && r.watermark.isNone then facts
    else facts.dropWhile (r.expired node.info.value)

theorem evaluateExpiration_fst : (node.evaluateExpiration r facts).1 = node.remaining r facts := by
  unfold evaluateExpiration remaining
  cases node.info.type with
  | length => exact evictFront_eq_drop
  | time =>
    by_cases h : r.eventTimeMode && r.watermark.isNone
    · simp only [h, if_true]
    · simp only [h, if_false, Bool.false_eq_true]
      exact evictFront_eq_dropWhile

theorem evaluateExpiration_spec :
    ∃ evicted, facts = evicted ++ node.remaining r facts ∧
      (node.evaluateExpiration r facts).2 = evicted.map (·, .retract) := by
  rw [← evaluateExpiration_fst]
  unfold evaluateExpiration
  cases node.info.type with
  | length => exact evictFront_spec
  | time =>
    by_cases h : r.eventTimeMode && r.watermark.isNone
    · exact ⟨[], by simp only [h, if_true, List.nil_append], by simp only [h, if_true, List.map_nil]⟩
    · simp only [h, if_false, Bool.false_eq_true]
      exact evictFront_spec

theorem remaining_sublist : (node.remaining r facts).Sublist facts := by
  obtain ⟨evicted, hfacts, -⟩ := node.evaluateExpiration_spec r facts
  have h : (node.remaining r facts).Sublist (evicted ++ node.remaining r facts) :=
    List.sublist_append_right _ _
  rwa [← hfacts] at h

theorem insertFact_perm (fact : FactPtr) :
    (node.insertFact r fact facts).Perm (fact :: facts) := by
  unfold insertFact
  cases node.info.type with
  | length => exact List.perm_append_singleton fact facts
  | time => exact SortedQueue.insertIdx_upperBound_perm fact

/-- What the children are told of a new fact: which facts had to leave, and that it came, unless it
was one of them. -/
theorem rightActivate_assert_spec (fact : FactPtr) :
    ∃ evicted, node.insertFact r fact facts =
        evicted ++ node.remaining r (node.insertFact r fact facts) ∧
      (node.rightActivate r fact .assert facts).2 =
        if fact ∈ node.remaining r (node.insertFact r fact facts) then
          evicted.map (·, .retract) ++ [(fact, .assert)]
        else evicted.map (·, .retract) := by
  obtain ⟨evicted, hfacts, hmessages⟩ :=
    node.evaluateExpiration_spec r (node.insertFact r fact facts)
  refine ⟨evicted, hfacts, ?_⟩
  rw [← node.evaluateExpiration_fst, ← hmessages]
  rfl

/-- What stays of a list without repetitions is what did not leave it. -/
theorem mem_remaining_iff {evicted remaining facts : List FactPtr} {g : FactPtr}
    (hnodup : facts.Nodup)
    (hfacts : facts = evicted ++ remaining) : g ∈ remaining ↔ g ∈ facts ∧ g ∉ evicted := by
  rw [hfacts, List.nodup_append] at hnodup
  obtain ⟨-, -, hdisjoint⟩ := hnodup
  rw [hfacts, List.mem_append]
  constructor
  · exact fun hg ↦ ⟨.inr hg, fun hev ↦ hdisjoint g hev g hg rfl⟩
  · rintro ⟨hg, hnot⟩
    exact hg.resolve_left hnot

end WindowNode

end RulesForge
