import RulesForge.Engine.Agenda

/-!
# The invariant of the agenda

Every activation in the map of the agenda has an entry in the queue, through every sequence of
operations: stale entries may be skipped, entries out of focus are set aside and pushed back,
and the queue is rebuilt from the map when it has grown too long. It follows that `pop_next`
misses no activation of the focused group and serves one of the highest salience.

A loop over the queue splits it into what is still to be looked at and what has been set aside;
`Covered` says that the two together cover the map.
-/

namespace RulesForge

/-! ### The queue -/

theorem queueBefore_trans {a b c : ℤ × ℕ} (hab : queueBefore a b = true)
    (hbc : queueBefore b c = true) : queueBefore a c = true := by
  simp only [queueBefore, Bool.or_eq_true, Bool.and_eq_true, decide_eq_true_eq] at *
  omega

theorem queueBefore_total (a b : ℤ × ℕ) : queueBefore a b = true ∨ queueBefore b a = true := by
  simp only [queueBefore, Bool.or_eq_true, Bool.and_eq_true, decide_eq_true_eq]
  omega

theorem salience_le_of_queueBefore {a b : ℤ × ℕ} (h : queueBefore a b = true) : b.1 ≤ a.1 := by
  simp only [queueBefore, Bool.or_eq_true, Bool.and_eq_true, decide_eq_true_eq] at h
  omega

/-- The queue is sorted: its top is the head of the list. -/
def QueueSorted (queue : List (ℤ × ℕ)) : Prop :=
  queue.Pairwise fun a b ↦ queueBefore a b = true

theorem queuePush_eq_orderedInsert (entry : ℤ × ℕ) (queue : List (ℤ × ℕ)) :
    queuePush entry queue = queue.orderedInsert (fun a b ↦ queueBefore a b = true) entry := by
  induction queue with
  | nil => rfl
  | cons e queue ih => rw [queuePush, List.orderedInsert_cons, ih]

@[simp]
theorem mem_queuePush {entry e : ℤ × ℕ} {queue : List (ℤ × ℕ)} :
    e ∈ queuePush entry queue ↔ e = entry ∨ e ∈ queue := by
  rw [queuePush_eq_orderedInsert]
  exact List.mem_orderedInsert _

theorem QueueSorted.push {queue : List (ℤ × ℕ)} (h : QueueSorted queue) (entry : ℤ × ℕ) :
    QueueSorted (queuePush entry queue) := by
  have : IsTrans (ℤ × ℕ) fun a b ↦ queueBefore a b = true := ⟨fun _ _ _ ↦ queueBefore_trans⟩
  have : Std.Total fun a b : ℤ × ℕ ↦ queueBefore a b = true := ⟨queueBefore_total⟩
  rw [queuePush_eq_orderedInsert]
  exact List.Pairwise.orderedInsert entry queue h

/-- Pushing several entries. -/
theorem foldl_queuePush (entries queue : List (ℤ × ℕ)) (h : QueueSorted queue) :
    (∀ e, e ∈ entries.foldl (fun queue entry ↦ queuePush entry queue) queue ↔
      e ∈ entries ∨ e ∈ queue) ∧
    QueueSorted (entries.foldl (fun queue entry ↦ queuePush entry queue) queue) := by
  induction entries generalizing queue with
  | nil => exact ⟨by simp, h⟩
  | cons entry entries ih =>
    obtain ⟨hmem, hsorted⟩ := ih (queuePush entry queue) (h.push entry)
    refine ⟨fun e ↦ ?_, hsorted⟩
    rw [List.foldl_cons, hmem, mem_queuePush, List.mem_cons]
    tauto

/-! ### Coverage -/

/-- The entries of a queue and those set aside cover the map, and every entry has the salience
of the rule its hash denotes. -/
structure Covered (ruleOf : ℕ → ParsedRule) (map : List (ℕ × Activation))
    (queue deferred : List (ℤ × ℕ)) : Prop where
  live : ∀ {hash a}, (hash, a) ∈ map →
    ((ruleOf hash).salience, hash) ∈ deferred ∨ ((ruleOf hash).salience, hash) ∈ queue
  salience : ∀ {e}, e ∈ deferred ∨ e ∈ queue → e.1 = (ruleOf e.2).salience
  sorted : QueueSorted queue

namespace Covered

variable {ruleOf : ℕ → ParsedRule} {map : List (ℕ × Activation)} {queue deferred : List (ℤ × ℕ)}
  {salience : ℤ} {hash : ℕ}

theorem head_salience (h : Covered ruleOf map ((salience, hash) :: queue) deferred) :
    salience = (ruleOf hash).salience :=
  h.salience (.inr List.mem_cons_self)

/-- A stale entry is dropped. -/
theorem skip (h : Covered ruleOf map ((salience, hash) :: queue) deferred)
    (hstale : ∀ a, (hash, a) ∉ map) : Covered ruleOf map queue deferred where
  live := by
    intro hash' a ha
    refine (h.live ha).imp id fun hmem ↦ ?_
    rcases List.mem_cons.mp hmem with heq | hmem
    · cases heq
      exact absurd ha (hstale a)
    · exact hmem
  salience he := h.salience (he.imp id (List.mem_cons_of_mem _))
  sorted := (List.pairwise_cons.mp h.sorted).2

/-- An entry is set aside. -/
theorem defer (h : Covered ruleOf map ((salience, hash) :: queue) deferred) :
    Covered ruleOf map queue (deferred ++ [(salience, hash)]) where
  live := by
    intro hash' a ha
    rcases h.live ha with hmem | hmem
    · exact .inl (List.mem_append_left _ hmem)
    · rcases List.mem_cons.mp hmem with heq | hmem
      · exact .inl (List.mem_append_right _ (List.mem_singleton.mpr heq))
      · exact .inr hmem
  salience := by
    rintro e (he | he)
    · rcases List.mem_append.mp he with he | he
      · exact h.salience (.inl he)
      · exact h.salience (.inr (List.mem_singleton.mp he ▸ List.mem_cons_self))
    · exact h.salience (.inr (List.mem_cons_of_mem _ he))
  sorted := (List.pairwise_cons.mp h.sorted).2

/-- A smaller map is covered. -/
theorem anti {map' : List (ℕ × Activation)} (h : Covered ruleOf map queue deferred)
    (hsub : map' ⊆ map) : Covered ruleOf map' queue deferred :=
  ⟨fun ha ↦ h.live (hsub ha), h.salience, h.sorted⟩

/-- The activation of the top entry is taken. -/
theorem take (h : Covered ruleOf map ((salience, hash) :: queue) deferred) :
    Covered ruleOf (AssocMap.erase hash map) queue deferred :=
  (h.anti List.filter_sublist.subset).skip fun _ ha ↦ (AssocMap.mem_erase.mp ha).1 rfl

/-- What was set aside is pushed back. -/
theorem pushBack (h : Covered ruleOf map queue deferred) :
    Covered ruleOf map (deferred.foldl (fun queue entry ↦ queuePush entry queue) queue) [] := by
  obtain ⟨hmem, hsorted⟩ := foldl_queuePush deferred queue h.sorted
  refine ⟨fun ha ↦ .inr ((hmem _).mpr (h.live ha)), ?_, hsorted⟩
  rintro e (he | he)
  · cases he
  · exact h.salience ((hmem e).mp he)

/-- An activation of a rule enters map and queue. -/
theorem insert (h : Covered ruleOf map queue []) {a : Activation} :
    Covered ruleOf (AssocMap.insert hash a map) (queuePush ((ruleOf hash).salience, hash) queue)
      [] where
  live := by
    intro hash' a' ha'
    refine .inr (mem_queuePush.mpr ?_)
    rcases AssocMap.mem_insert.mp ha' with ⟨-, ha'⟩ | ⟨rfl, -⟩
    · exact .inr ((h.live ha').resolve_left List.not_mem_nil)
    · exact .inl rfl
  salience := by
    rintro e (he | he)
    · cases he
    · rcases mem_queuePush.mp he with rfl | he
      · rfl
      · exact h.salience (.inr he)
  sorted := h.sorted.push _

end Covered

variable {ruleOf : ℕ → ParsedRule}

/-- The queue built anew from the map covers it. -/
theorem covered_compacted (map : List (ℕ × Activation))
    (hrule : ∀ {hash a}, (hash, a) ∈ map → a.rule = ruleOf hash) :
    Covered ruleOf map
      (map.foldl (fun queue entry ↦ queuePush (entry.2.rule.salience, entry.1) queue) []) [] := by
  have hfold := foldl_queuePush (map.map fun entry ↦ (entry.2.rule.salience, entry.1)) []
    List.Pairwise.nil
  rw [List.foldl_map] at hfold
  obtain ⟨hmem, hsorted⟩ := hfold
  refine ⟨fun {hash a} ha ↦ .inr ((hmem _).mpr (.inl (List.mem_map.mpr ⟨(hash, a), ha, ?_⟩))), ?_,
    hsorted⟩
  · rw [hrule ha]
  · rintro e (he | he)
    · cases he
    · rcases (hmem e).mp he with he | he
      · obtain ⟨⟨hash, a⟩, ha, rfl⟩ := List.mem_map.mp he
        rw [hrule ha]
      · cases he

/-! ### The invariant -/

/-- The invariant of the agenda, where `ruleOf` is the rule that a hash denotes. -/
structure AgendaInv (ruleOf : ℕ → ParsedRule) (agenda : Agenda) : Prop where
  unique : AssocMap.Unique agenda.agendaMap
  denotes : ∀ {hash a}, (hash, a) ∈ agenda.agendaMap → a.hashValue = hash ∧ a.rule = ruleOf hash
  covered : Covered ruleOf agenda.agendaMap agenda.agendaQueue []
  delayed : ∀ {time a}, (time, a) ∈ agenda.delayedActivations → a.rule = ruleOf a.hashValue

namespace Agenda

variable {agenda agenda' : Agenda}

/-- The parts of the agenda that the invariant speaks of are the same. -/
structure SameEntries (agenda agenda' : Agenda) : Prop where
  map : agenda'.agendaMap = agenda.agendaMap
  queue : agenda'.agendaQueue = agenda.agendaQueue
  delayed : agenda'.delayedActivations = agenda.delayedActivations
  focus : agenda'.focusStack = agenda.focusStack

theorem sameEntries_joinGroup (agenda : Agenda) (a : Activation) :
    SameEntries agenda (agenda.joinGroup a) := by
  unfold joinGroup
  split <;> exact ⟨rfl, rfl, rfl, rfl⟩

theorem sameEntries_eraseFromGroup (agenda : Agenda) (group : String) (hash : ℕ) :
    SameEntries agenda (agenda.eraseFromGroup group hash) := by
  unfold eraseFromGroup
  split <;> exact ⟨rfl, rfl, rfl, rfl⟩

theorem sameEntries_leaveGroup (agenda : Agenda) (rule : ParsedRule) (hash : ℕ) :
    SameEntries agenda (agenda.leaveGroup rule hash) := by
  unfold leaveGroup
  split
  · exact ⟨rfl, rfl, rfl, rfl⟩
  · exact sameEntries_eraseFromGroup agenda _ hash

end Agenda

namespace AgendaInv

variable {ruleOf : ℕ → ParsedRule} {agenda agenda' : Agenda} (h : AgendaInv ruleOf agenda)

include h

/-- The groups and the focus play no part. -/
theorem congr (hmap : agenda'.agendaMap = agenda.agendaMap)
    (hqueue : agenda'.agendaQueue = agenda.agendaQueue)
    (hdelayed : agenda'.delayedActivations = agenda.delayedActivations) :
    AgendaInv ruleOf agenda' := by
  refine ⟨?_, ?_, ?_, ?_⟩
  · rw [hmap]
    exact h.unique
  · rw [hmap]
    exact h.denotes
  · rw [hmap, hqueue]
    exact h.covered
  · rw [hdelayed]
    exact h.delayed

theorem same (hsame : agenda.SameEntries agenda') :
    AgendaInv ruleOf agenda' :=
  h.congr hsame.map hsame.queue hsame.delayed

/-- An activation enters the agenda, when it is added and when it is put back. -/
theorem enter {a : Activation} {salience : ℤ}
    (hrule : a.rule = ruleOf a.hashValue) (hsalience : salience = a.rule.salience) :
    AgendaInv ruleOf
      (Agenda.joinGroup { agenda with
        agendaMap := AssocMap.insert a.hashValue a agenda.agendaMap
        agendaQueue := queuePush (salience, a.hashValue) agenda.agendaQueue } a) := by
  have hentered : AgendaInv ruleOf { agenda with
      agendaMap := AssocMap.insert a.hashValue a agenda.agendaMap
      agendaQueue := queuePush (salience, a.hashValue) agenda.agendaQueue } := by
    refine ⟨h.unique.insert _ _, ?_, ?_, h.delayed⟩
    · intro hash b hb
      rcases AssocMap.mem_insert.mp hb with ⟨-, hb⟩ | ⟨rfl, rfl⟩
      · exact h.denotes hb
      · exact ⟨rfl, hrule⟩
    · rw [hsalience, hrule]
      exact h.covered.insert
  exact hentered.same (Agenda.sameEntries_joinGroup _ a)

theorem add {a : Activation} (hrule : a.rule = ruleOf a.hashValue) :
    AgendaInv ruleOf (agenda.add a) :=
  h.enter hrule rfl

theorem addBatch {activations : List Activation}
    (hrules : ∀ a ∈ activations, a.rule = ruleOf a.hashValue) :
    AgendaInv ruleOf (agenda.addBatch activations) := by
  induction activations generalizing agenda with
  | nil => exact h
  | cons a activations ih =>
    obtain ⟨hrule, hrules⟩ := List.forall_mem_cons.mp hrules
    exact ih (h.add hrule) hrules

theorem addWithDuration (now : ℤ) {a : Activation}
    (hrule : a.rule = ruleOf a.hashValue) : AgendaInv ruleOf (agenda.addWithDuration now a) := by
  unfold Agenda.addWithDuration
  split
  · refine ⟨h.unique, h.denotes, h.covered, ?_⟩
    intro time b hb
    rcases List.mem_append.mp hb with hb | hb
    · exact h.delayed hb
    · cases List.mem_singleton.mp hb
      exact hrule
  · exact h.add hrule

theorem flushReadyDelayed (now : ℤ) :
    AgendaInv ruleOf (agenda.flushReadyDelayed now) := by
  have hrest : AgendaInv ruleOf { agenda with
      delayedActivations := agenda.delayedActivations.filter fun d ↦ ¬ d.1 ≤ now } :=
    ⟨h.unique, h.denotes, h.covered, fun hb ↦ h.delayed (List.mem_of_mem_filter hb)⟩
  refine hrest.addBatch fun a ha ↦ ?_
  obtain ⟨⟨time, b⟩, hb, rfl⟩ := List.mem_map.mp ha
  exact h.delayed (List.mem_of_mem_filter ((List.mem_insertionSort _).mp hb))

/-- Fewer activations in the map. -/
theorem shrink (hunique : AssocMap.Unique agenda'.agendaMap)
    (hsub : agenda'.agendaMap ⊆ agenda.agendaMap)
    (hqueue : agenda'.agendaQueue = agenda.agendaQueue)
    (hdelayed : agenda'.delayedActivations = agenda.delayedActivations) :
    AgendaInv ruleOf agenda' := by
  refine ⟨hunique, fun ha ↦ h.denotes (hsub ha), ?_, ?_⟩
  · rw [hqueue]
    exact h.covered.anti hsub
  · rw [hdelayed]
    exact h.delayed

theorem remove (hash : ℕ) :
    AgendaInv ruleOf (agenda.remove hash) := by
  unfold Agenda.remove
  split
  · exact h
  · next a _ =>
    have hsame := agenda.sameEntries_leaveGroup a.rule hash
    exact h.shrink (h.unique.erase hash) List.filter_sublist.subset hsame.queue hsame.delayed

theorem foldl_remove {α : Type} (f : α → ℕ) (l : List α) :
    AgendaInv ruleOf (l.foldl (fun agenda x ↦ agenda.remove (f x)) agenda) := by
  induction l generalizing agenda with
  | nil => exact h
  | cons x l ih => exact ih (h.remove (f x))

theorem removeActivationsWithFactId (factId : FactPtr → ℤ)
    (id : ℤ) : AgendaInv ruleOf (agenda.removeActivationsWithFactId factId id) :=
  h.foldl_remove Prod.fst _

theorem cancelActivationGroup (group : String) (exceptHash : ℕ) :
    AgendaInv ruleOf (agenda.cancelActivationGroup group exceptHash) := by
  unfold Agenda.cancelActivationGroup
  split
  · exact h
  · next members _ =>
    exact AgendaInv.same (h.foldl_remove id _) (Agenda.sameEntries_eraseFromGroup _ group exceptHash)

/-! ### Popping -/

/-- A queue that covers the map with what was set aside is put in place, and rebuilt when it
is too long. -/
theorem requeued {queue deferred : List (ℤ × ℕ)}
    (hcovered : Covered ruleOf agenda.agendaMap queue deferred) (staleSkipped : ℕ) :
    AgendaInv ruleOf ((Agenda.pushBack { agenda with agendaQueue := queue }
      deferred).compactIfNeeded staleSkipped) := by
  unfold Agenda.compactIfNeeded
  split
  · exact ⟨h.unique, h.denotes, hcovered.pushBack, h.delayed⟩
  · exact ⟨h.unique, h.denotes, covered_compacted _ fun ha ↦ (h.denotes ha).2, h.delayed⟩

/-- The activation of a hash is taken from the map. -/
theorem erase (hash : ℕ) :
    AgendaInv ruleOf { agenda with agendaMap := AssocMap.erase hash agenda.agendaMap } :=
  h.shrink (h.unique.erase hash) List.filter_sublist.subset rfl rfl

theorem popNextFrom (queue deferred : List (ℤ × ℕ))
    (staleSkipped : ℕ) (hcovered : Covered ruleOf agenda.agendaMap queue deferred) :
    AgendaInv ruleOf (agenda.popNextFrom queue deferred staleSkipped).2 := by
  induction queue generalizing deferred staleSkipped with
  | nil => exact h.requeued hcovered staleSkipped
  | cons entry queue ih =>
    obtain ⟨salience, hash⟩ := entry
    unfold Agenda.popNextFrom
    split
    · next hstale => exact ih _ _ (hcovered.skip (AssocMap.lookup_eq_none_iff.mp hstale))
    · split
      · exact (h.erase hash).requeued hcovered.take staleSkipped
      · exact ih _ _ hcovered.defer

theorem popNext : AgendaInv ruleOf agenda.popNext.2 :=
  h.popNextFrom _ _ _ h.covered

/-- A popped activation with the salience of its rule. -/
structure ItemOk (ruleOf : ℕ → ParsedRule) (item : PoppedActivationItem) : Prop where
  rule : item.activation.rule = ruleOf item.activation.hashValue
  salience : item.salience = item.activation.rule.salience

theorem popNextBatchFrom (queue : List (ℤ × ℕ)) (room : ℕ)
    (deferred : List (ℤ × ℕ)) (staleSkipped : ℕ)
    (hcovered : Covered ruleOf agenda.agendaMap queue deferred) :
    AgendaInv ruleOf (Agenda.popNextBatchFrom queue room agenda deferred staleSkipped).2 ∧
      ∀ item ∈ (Agenda.popNextBatchFrom queue room agenda deferred staleSkipped).1,
        ItemOk ruleOf item := by
  induction queue generalizing agenda room deferred staleSkipped with
  | nil =>
    cases room with
    | zero => exact ⟨h.requeued hcovered staleSkipped, by simp [Agenda.popNextBatchFrom]⟩
    | succ room => exact ⟨h.requeued hcovered staleSkipped, by simp [Agenda.popNextBatchFrom]⟩
  | cons entry queue ih =>
    obtain ⟨salience, hash⟩ := entry
    cases room with
    | zero => exact ⟨h.requeued hcovered staleSkipped, by simp [Agenda.popNextBatchFrom]⟩
    | succ room =>
      unfold Agenda.popNextBatchFrom
      split
      · next hstale => exact ih h _ _ _ (hcovered.skip (AssocMap.lookup_eq_none_iff.mp hstale))
      · next candidate hlookup =>
        split
        · have hsame := agenda.sameEntries_leaveGroup candidate.rule hash
          have htaken : AgendaInv ruleOf { agenda.leaveGroup candidate.rule hash with
              agendaMap := AssocMap.erase hash agenda.agendaMap } :=
            (h.erase hash).congr rfl hsame.queue hsame.delayed
          obtain ⟨hinv, hitems⟩ := ih htaken room deferred staleSkipped hcovered.take
          have hdenotes := h.denotes (h.unique.lookup_eq_some_iff.mp hlookup)
          refine ⟨hinv, List.forall_mem_cons.mpr ⟨⟨?_, ?_⟩, hitems⟩⟩
          · rw [hdenotes.2, hdenotes.1]
          · rw [hdenotes.2]
            exact hcovered.head_salience
        · exact ih h _ _ _ hcovered.defer

theorem popNextBatchActivations (maxItems : ℕ) :
    AgendaInv ruleOf (agenda.popNextBatchActivations maxItems).2 ∧
      ∀ item ∈ (agenda.popNextBatchActivations maxItems).1, ItemOk ruleOf item := by
  unfold Agenda.popNextBatchActivations
  split
  · exact ⟨h, by simp⟩
  · exact h.popNextBatchFrom _ _ _ _ h.covered

theorem requeueBatchActivations {batch : List PoppedActivationItem}
    (hbatch : ∀ item ∈ batch, ItemOk ruleOf item) (startIndex : ℕ) :
    AgendaInv ruleOf (agenda.requeueBatchActivations batch startIndex) := by
  have hitems : ∀ item ∈ batch.drop startIndex, ItemOk ruleOf item :=
    fun item hitem ↦ hbatch item (List.mem_of_mem_drop hitem)
  unfold Agenda.requeueBatchActivations
  generalize batch.drop startIndex = items at hitems
  induction items generalizing agenda with
  | nil => exact h
  | cons item items ih =>
    obtain ⟨hitem, hitems⟩ := List.forall_mem_cons.mp hitems
    exact ih (h.enter hitem.rule hitem.salience) hitems

end AgendaInv

/-! ### What is served -/

/-- A right answer to the question for the next activation: none when no activation of the
focused group is in the map, otherwise one of them that no other exceeds in salience. -/
def Agenda.Serves (agenda : Agenda) : Option Activation → Prop
  | none => ∀ hash a, (hash, a) ∈ agenda.agendaMap → agenda.inFocus a = false
  | some a => (a.hashValue, a) ∈ agenda.agendaMap ∧ agenda.inFocus a = true ∧
      ∀ hash b, (hash, b) ∈ agenda.agendaMap → agenda.inFocus b = true →
        b.rule.salience ≤ a.rule.salience

theorem AgendaInv.popNextFrom_serves {agenda : Agenda}
    (h : AgendaInv ruleOf agenda) (queue deferred : List (ℤ × ℕ)) (staleSkipped : ℕ)
    (hcovered : Covered ruleOf agenda.agendaMap queue deferred)
    (hdeferred : ∀ e ∈ deferred, ∀ a, (e.2, a) ∈ agenda.agendaMap → agenda.inFocus a = false) :
    agenda.Serves (agenda.popNextFrom queue deferred staleSkipped).1 := by
  induction queue generalizing deferred staleSkipped with
  | nil =>
    intro hash a ha
    exact hdeferred _ ((hcovered.live ha).resolve_right List.not_mem_nil) a ha
  | cons entry queue ih =>
    obtain ⟨salience, hash⟩ := entry
    unfold Agenda.popNextFrom
    split
    · next hstale =>
      exact ih _ _ (hcovered.skip (AssocMap.lookup_eq_none_iff.mp hstale)) hdeferred
    · next candidate hlookup =>
      have hmem := h.unique.lookup_eq_some_iff.mp hlookup
      obtain ⟨hhash, hrule⟩ := h.denotes hmem
      split
      · next hfocus =>
        refine ⟨hhash ▸ hmem, hfocus, fun hash' b hb hbfocus ↦ ?_⟩
        rw [hrule, (h.denotes hb).2, ← hcovered.head_salience]
        -- An activation in focus has not been set aside, and the queue is sorted.
        rcases hcovered.live hb with hentry | hentry
        · rw [hdeferred _ hentry b hb] at hbfocus
          cases hbfocus
        · rcases List.mem_cons.mp hentry with heq | hentry
          · cases heq
            exact le_refl _
          · exact salience_le_of_queueBefore ((List.pairwise_cons.mp hcovered.sorted).1 _ hentry)
      · next hfocus =>
        refine ih _ _ hcovered.defer ?_
        intro e he a ha
        rcases List.mem_append.mp he with he | he
        · exact hdeferred e he a ha
        · cases List.mem_singleton.mp he
          rw [h.unique.lookup_eq_some_iff.mpr ha] at hlookup
          cases hlookup
          exact Bool.eq_false_of_not_eq_true hfocus

theorem AgendaInv.popNext_serves {agenda : Agenda}
    (h : AgendaInv ruleOf agenda) : agenda.Serves agenda.popNext.1 :=
  h.popNextFrom_serves _ _ _ h.covered (by simp)

/-! ### Runs -/

/-- The operations of an agenda. A batch that is put back is one of those popped before, given
by its position, the latest first. -/
inductive AgendaOp where
  | add (activation : Activation)
  | addWithDuration (now : ℤ) (activation : Activation)
  | addBatch (activations : List Activation)
  | flushReadyDelayed (now : ℤ)
  | remove (hash : ℕ)
  | popNext
  | popNextBatchActivations (maxItems : ℕ)
  | requeueBatchActivations (batch startIndex : ℕ)
  | setFocus (group : String)
  | popFocus
  | cancelActivationGroup (group : String) (exceptHash : ℕ)
  | clearActivationGroups
  | removeActivationsWithFactId (factId : FactPtr → ℤ) (id : ℤ)

/-- An agenda with the batches that were popped from it, the latest first. -/
structure AgendaState where
  agenda : Agenda := {}
  popped : List (List PoppedActivationItem) := []

def AgendaOp.run : AgendaOp → AgendaState → AgendaState
  | .add a, s => { s with agenda := s.agenda.add a }
  | .addWithDuration now a, s => { s with agenda := s.agenda.addWithDuration now a }
  | .addBatch activations, s => { s with agenda := s.agenda.addBatch activations }
  | .flushReadyDelayed now, s => { s with agenda := s.agenda.flushReadyDelayed now }
  | .remove hash, s => { s with agenda := s.agenda.remove hash }
  | .popNext, s => { s with agenda := s.agenda.popNext.2 }
  | .popNextBatchActivations maxItems, s =>
    let (batch, agenda) := s.agenda.popNextBatchActivations maxItems
    { agenda := agenda, popped := batch :: s.popped }
  | .requeueBatchActivations batch startIndex, s =>
    { s with agenda := s.agenda.requeueBatchActivations (s.popped[batch]?.getD []) startIndex }
  | .setFocus group, s => { s with agenda := s.agenda.setFocus group }
  | .popFocus, s => { s with agenda := s.agenda.popFocus }
  | .cancelActivationGroup group exceptHash, s =>
    { s with agenda := s.agenda.cancelActivationGroup group exceptHash }
  | .clearActivationGroups, s => { s with agenda := s.agenda.clearActivationGroups }
  | .removeActivationsWithFactId factId id, s =>
    { s with agenda := s.agenda.removeActivationsWithFactId factId id }

/-- The activations that an operation brings. -/
def AgendaOp.brings : AgendaOp → List Activation
  | .add a | .addWithDuration _ a => [a]
  | .addBatch activations => activations
  | _ => []

/-- The state after a sequence of operations on a new agenda. -/
def runAgenda (ops : List AgendaOp) : AgendaState :=
  ops.foldl (fun s op ↦ op.run s) {}

/-- The invariant of an agenda and of the batches popped from it. -/
structure AgendaState.Inv (ruleOf : ℕ → ParsedRule) (s : AgendaState) : Prop where
  agenda : AgendaInv ruleOf s.agenda
  popped : ∀ batch ∈ s.popped, ∀ item ∈ batch, AgendaInv.ItemOk ruleOf item

/-- **Every operation keeps the invariant**, if the activations it brings are of the rules their
hashes denote. -/
theorem AgendaOp.run_inv {s : AgendaState} (h : s.Inv ruleOf)
    (op : AgendaOp) (hop : ∀ a ∈ op.brings, a.rule = ruleOf a.hashValue) :
    (op.run s).Inv ruleOf := by
  cases op with
  | add a => exact ⟨h.agenda.add (hop a List.mem_cons_self), h.popped⟩
  | addWithDuration now a =>
    exact ⟨h.agenda.addWithDuration now (hop a List.mem_cons_self), h.popped⟩
  | addBatch activations => exact ⟨h.agenda.addBatch hop, h.popped⟩
  | flushReadyDelayed now => exact ⟨h.agenda.flushReadyDelayed now, h.popped⟩
  | remove hash => exact ⟨h.agenda.remove hash, h.popped⟩
  | popNext => exact ⟨h.agenda.popNext, h.popped⟩
  | popNextBatchActivations maxItems =>
    obtain ⟨hinv, hitems⟩ := h.agenda.popNextBatchActivations maxItems
    exact ⟨hinv, List.forall_mem_cons.mpr ⟨hitems, h.popped⟩⟩
  | requeueBatchActivations batch startIndex =>
    refine ⟨h.agenda.requeueBatchActivations ?_ startIndex, h.popped⟩
    cases hbatch : s.popped[batch]? with
    | none => simp
    | some items => exact h.popped items (List.mem_of_getElem? hbatch)
  | setFocus group => exact ⟨h.agenda.congr rfl rfl rfl, h.popped⟩
  | popFocus => exact ⟨h.agenda.congr rfl rfl rfl, h.popped⟩
  | cancelActivationGroup group exceptHash =>
    exact ⟨h.agenda.cancelActivationGroup group exceptHash, h.popped⟩
  | clearActivationGroups => exact ⟨h.agenda.congr rfl rfl rfl, h.popped⟩
  | removeActivationsWithFactId factId id =>
    exact ⟨h.agenda.removeActivationsWithFactId factId id, h.popped⟩

theorem runAgenda_inv (ops : List AgendaOp)
    (hops : ∀ op ∈ ops, ∀ a ∈ op.brings, a.rule = ruleOf a.hashValue) :
    (runAgenda ops).Inv ruleOf := by
  have hrun : ∀ s : AgendaState, s.Inv ruleOf →
      (ops.foldl (fun s op ↦ op.run s) s).Inv ruleOf := by
    induction ops with
    | nil => exact fun s h ↦ h
    | cons op ops ih =>
      obtain ⟨hop, hops⟩ := List.forall_mem_cons.mp hops
      exact fun s h ↦ ih hops _ (AgendaOp.run_inv h op hop)
  refine hrun {} ⟨⟨List.nodup_nil, ?_, ⟨?_, ?_, List.Pairwise.nil⟩, ?_⟩, ?_⟩ <;> simp

/-- **The agenda keeps every live activation and serves the right one**: after every sequence of
operations in which a hash denotes one rule, each activation in the map has its entry in the
queue, `pop_next` returns nothing exactly when no activation in the map is in focus, and
otherwise an activation in the map that is in focus and that no other one in focus exceeds in
salience. -/
theorem agenda_serves_live (ruleOf : ℕ → ParsedRule) (ops : List AgendaOp)
    (hops : ∀ op ∈ ops, ∀ a ∈ op.brings, a.rule = ruleOf a.hashValue) :
    let agenda := (runAgenda ops).agenda
    (∀ hash a, (hash, a) ∈ agenda.agendaMap →
      (a.rule.salience, hash) ∈ agenda.agendaQueue) ∧
    (agenda.popNext.1 = none ↔
      ∀ hash a, (hash, a) ∈ agenda.agendaMap → agenda.inFocus a = false) ∧
    ∀ a, agenda.popNext.1 = some a →
      (a.hashValue, a) ∈ agenda.agendaMap ∧ agenda.inFocus a = true ∧
        ∀ hash b, (hash, b) ∈ agenda.agendaMap → agenda.inFocus b = true →
          b.rule.salience ≤ a.rule.salience := by
  intro agenda
  have hinv : AgendaInv ruleOf agenda := (runAgenda_inv ops hops).agenda
  have hserves := hinv.popNext_serves
  refine ⟨fun hash a ha ↦ ?_, ⟨fun hnone ↦ ?_, fun hfocus ↦ ?_⟩, fun a hsome ↦ ?_⟩
  · rw [(hinv.denotes ha).2]
    exact (hinv.covered.live ha).resolve_left List.not_mem_nil
  · rw [hnone] at hserves
    exact hserves
  · cases hpop : agenda.popNext.1 with
    | none => rfl
    | some a =>
      rw [hpop] at hserves
      have hfalse := hfocus a.hashValue a hserves.1
      rw [hserves.2.1] at hfalse
      cases hfalse
  · rw [hsome] at hserves
    exact hserves

/-- Two activations of one rule, one of which is removed again. -/
def staleOps : List AgendaOp :=
  [.add ⟨0, { name := "R" }, .root, 1, none⟩, .add ⟨0, { name := "R" }, .root, 2, none⟩, .remove 2]

theorem agenda_serves_live_staleOps :
    (runAgenda staleOps).agenda.popNext.1 = none ↔
      ∀ hash a, (hash, a) ∈ (runAgenda staleOps).agenda.agendaMap →
        (runAgenda staleOps).agenda.inFocus a = false :=
  (agenda_serves_live (fun _ ↦ { name := "R" }) staleOps
    (by simp [staleOps, AgendaOp.brings])).2.1

end RulesForge
